import IsaCodec.Condition.Basic
import IsaCodec.Condition.Error
import IsaCodec.Layout

/-! # Instructions

    A compiled instruction: its layout and its conditions.  This module has
    what follows from the layout alone: the fixed-bit test, the values of
    the fields in a code, and the code for given values. -/

namespace IsaCodec

/-- A compiled instruction. -/
structure Instruction where
  name : String
  /-- The encoding format from which the layout was compiled. -/
  format : String
  form : Form
  fixed : FixedBits
  /-- Has to hold of a code, if it is there. -/
  matchCondition : Option Condition
  /-- Must not hold of a code, if it is there. -/
  unmatchCondition : Option Condition
  /-- The fields, in descending order of their most significant bit. -/
  fields : List Field
  /-- Data of the user's that belongs to the instruction. -/
  extras : Option Value

/-- The values of an instruction's fields, in order of the fields. -/
abbrev FieldValues := List (String × Code)

namespace FieldValues

/-- The value of a field. -/
def get? (values : FieldValues) (name : String) : Option Code :=
  values.lookup name

/-- Text of the values, as in `cond=0xe imm24=0x10`. -/
def text (values : FieldValues) : String :=
  " ".intercalate (values.map fun (name, value) => name ++ "=" ++ value.hex)

end FieldValues

namespace Instruction

/-- Number of bits of the instruction. -/
def bitLen (instruction : Instruction) : Nat :=
  instruction.form.bitLen

/-- Number of bytes of the instruction. -/
def byteLen (instruction : Instruction) : Nat :=
  instruction.form.byteLen

/-- Size of the smallest storage unit that holds the instruction. -/
def storageBits (instruction : Instruction) : Nat :=
  Code.storageBits instruction.bitLen

/-- The name of the instruction of an index; empty if there is none. -/
def nameAt (instructions : List Instruction) (i : Nat) : String :=
  match instructions[i]? with
  | none => ""
  | some instruction => instruction.name

/-- The field of this name. -/
def field? (instruction : Instruction) (name : String) : Option Field :=
  instruction.fields.find? (·.name == name)

/-! ## Fixed bits -/

/-- Does a code have the instruction's fixed bits? -/
def matchesFixedBits (instruction : Instruction) (code : Code) : Bool :=
  instruction.fixed.isMatch code

/-- The fixed bits of the instruction of an index; an index without an
    instruction fixes none. -/
def fixedAt (instructions : List Instruction) (i : Nat) : FixedBits :=
  match instructions[i]? with
  | none => .none
  | some instruction => instruction.fixed

/-- Only bits of the fixed-bit mask may be fixed to one. -/
def checkMask (instruction : Instruction) : Except LayoutError Unit :=
  if instruction.fixed.isCovered then .ok ()
  else .error ⟨instruction.name, .maskInvariant instruction.fixed.mask instruction.fixed.bits⟩

/-! ## Values and codes -/

/-- The values of all fields in a code. -/
def decodeFields (instruction : Instruction) (code : Code) : FieldValues :=
  instruction.fields.map fun field => (field.name, field.decode code)

/-- Writes one value into a code.  The field has to exist and to have all
    bits of the value. -/
def assign (instruction : Instruction) (code : Code) (name : String) (value : Code) :
    Except LayoutFault Code :=
  match instruction.field? name with
  | none => .error (.undefinedField name)
  | some field =>
    if value &&& ~~~field.valueMask ≠ 0 then .error (.fieldValue name value)
    else .ok (field.encode value code)

/-- Writes values into a code, one after the other. -/
def assignAll (instruction : Instruction) (code : Code) : FieldValues → Except LayoutFault Code
  | [] => .ok code
  | (name, value) :: rest => do
    let code ← instruction.assign code name value
    instruction.assignAll code rest

/-- The code with the fixed bits and the given values; bits of other fields
    that are not fixed are zero. -/
def encode (instruction : Instruction) (values : FieldValues) : Except LayoutError Code :=
  (instruction.assignAll instruction.fixed.bits values).mapError (⟨instruction.name, ·⟩)

end Instruction

end IsaCodec
