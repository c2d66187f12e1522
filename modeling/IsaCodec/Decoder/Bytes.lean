import IsaCodec.Bytes
import IsaCodec.DecisionTree.Lookup
import IsaCodec.Decoder.Basic
import IsaCodec.Sorting

/-! # Decoding bytes

    The leading bytes are assembled into a code for each form on its own, and
    each code is looked up in the tree of its form.  Forms that are longer
    than the bytes there are, or whose elements are no whole number of bytes,
    are skipped. -/

namespace IsaCodec

/-- An instruction found in bytes. -/
structure Decoded where
  /-- Position of the instruction in the description. -/
  index : Nat
  instruction : Instruction
  /-- The code of the instruction's form. -/
  code : Code
  /-- The values of the fields. -/
  fields : FieldValues

namespace Decoded

/-- Number of bytes that the instruction takes. -/
def byteLen (decoded : Decoded) : Nat :=
  decoded.instruction.byteLen

/-- Text of the instruction and its fields, as in `b_1 cond=0xe imm24=0x10`. -/
def text (decoded : Decoded) : String :=
  match decoded.fields with
  | [] => decoded.instruction.name
  | fields => decoded.instruction.name ++ " " ++ fields.text

end Decoded

namespace Decoder

/-- What the leading bytes are in the form of one tree. -/
def decodeForm (decoder : Decoder) (bytes : List Byte) (tree : DecisionTree) :
    Traced ConditionError (List Decoded) :=
  match assemble bytes decoder.machine.byteOrder tree.form with
  | none => pure []
  | some code => do
    let indices ← tree.decode decoder.registry decoder.instructions code
    pure (indices.filterMap fun index =>
      (decoder.instructions[index]?).map fun instruction =>
        ⟨index, instruction, code, instruction.decodeFields code⟩)

/-- All instructions at the start of the bytes, in order of declaration. -/
def decodeBytes (decoder : Decoder) (bytes : List Byte) :
    Traced ConditionError (List Decoded) := do
  let found ← Traced.collect (decoder.decodeForm bytes) decoder.trees
  pure (sortBy (fun a b => a.index ≤ b.index) found.flatten)

end Decoder

/-- Text of what was found in bytes. -/
def renderDecoded : List Decoded → String
  | [] => "unknown"
  | found => " | ".intercalate (found.map Decoded.text)

end IsaCodec
