import IsaCodec.ByteOrder
import IsaCodec.Dictionary
import IsaCodec.Value

/-! # Descriptions

    What a user writes down about an instruction set, before anything is
    checked or compiled. -/

namespace IsaCodec

/-- Facts about the machine as a whole. -/
structure MachineDescription where
  byteOrder : ByteOrder
  extras : Option Value

/-- One instruction: its encoding format and conditions, as text. -/
structure InstructionDescription where
  name : String
  format : String
  /-- Has to hold of a code of the instruction. -/
  matchCondition : Option String
  /-- Must not hold of a code of the instruction. -/
  unmatchCondition : Option String
  extras : Option Value
  /-- Data that belongs to single fields, by their names. -/
  fieldExtras : Dictionary Value

/-- Facts about the decoder that is made from the description. -/
structure DecoderDescription where
  namespaceName : Option String

/-- An instruction set; the order of the instructions is their priority. -/
structure Description where
  machine : MachineDescription
  instructions : List InstructionDescription
  decoder : Option DecoderDescription
  extras : Option Value

end IsaCodec
