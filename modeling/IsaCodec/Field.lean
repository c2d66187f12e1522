import IsaCodec.Form
import IsaCodec.Value

/-! # Fields

    A field is a named value scattered over an instruction.  Each of its
    subfields is a contiguous run of instruction bits that holds a
    contiguous run of bits of the value. -/

namespace IsaCodec

/-- Instruction bits `msb` down to `lsb`, which hold the bits of a field's
    value from `lsbInField` on. -/
structure Subfield where
  msb : Nat
  lsb : Nat
  lsbInField : Nat
  deriving DecidableEq

namespace Subfield

/-- Number of bits, for a subfield with its ends in order, as those of compiled instructions are. -/
def width (subfield : Subfield) : Nat :=
  subfield.msb - subfield.lsb + 1

/-- The subfield's bits in the instruction. -/
def mask (subfield : Subfield) : Code :=
  Code.lowMask subfield.width <<< subfield.lsb

/-- The subfield's bits in the value of its field. -/
def valueMask (subfield : Subfield) : Code :=
  Code.lowMask subfield.width <<< subfield.lsbInField

/-- The encoding element that holds the subfield.  The form has to have the subfield's bits, as that
    of a compiled instruction does; then its elements are not empty. -/
def element (subfield : Subfield) (form : Form) : Nat :=
  form.elementOf subfield.msb

/-- The subfield's part of the value of its field. -/
def decode (subfield : Subfield) (code : Code) : Code :=
  ((code >>> subfield.lsb) &&& Code.lowMask subfield.width) <<< subfield.lsbInField

/-- Writes the subfield's part of a value into a code. -/
def encode (subfield : Subfield) (value : Code) (code : Code) : Code :=
  Code.deposit code subfield.lsb subfield.width (value >>> subfield.lsbInField)

end Subfield

/-- A named value made of subfields, in order of declaration. -/
structure Field where
  name : String
  subfields : List Subfield
  /-- Data of the user's that belongs to the field. -/
  extras : Option Value

namespace Field

/-- Number of instruction bits in the field. -/
def width (field : Field) : Nat :=
  field.subfields.foldr (fun subfield total => subfield.width + total) 0

/-- The most significant instruction bit of the field. -/
def msb (field : Field) : Nat :=
  (field.subfields.map Subfield.msb).max?.getD 0

/-- Number of bits up to the highest one of the value. -/
def valueBits (field : Field) : Nat :=
  (field.subfields.map fun s => s.lsbInField + s.width).max?.getD 1

/-- Size of the smallest storage unit that holds the value. -/
def storageBits (field : Field) : Nat :=
  Code.storageBits field.valueBits

/-- The field's bits in the instruction. -/
def mask (field : Field) : Code :=
  Code.union (field.subfields.map Subfield.mask)

/-- The bits that a value of the field may have. -/
def valueMask (field : Field) : Code :=
  Code.union (field.subfields.map Subfield.valueMask)

/-- The value of the field in a code. -/
def decode (field : Field) (code : Code) : Code :=
  Code.union (field.subfields.map (Subfield.decode · code))

/-- The part of the value that one encoding element holds. -/
def decodeElement (field : Field) (code : Code) (form : Form) (element : Nat) : Code :=
  Code.union ((field.subfields.filter (Subfield.element · form == element)).map (Subfield.decode · code))

/-- Does the field have bits in this encoding element? -/
def hasElement (field : Field) (form : Form) (element : Nat) : Bool :=
  field.subfields.any (Subfield.element · form == element)

/-- Writes a value into the field's bits of a code. -/
def encode (field : Field) (value : Code) (code : Code) : Code :=
  field.subfields.foldl (fun code subfield => subfield.encode value code) code

end Field

end IsaCodec
