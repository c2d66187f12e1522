import IsaCodec.Instruction.Compile

/-! # Compilation in machine arithmetic

    A layout is compiled with numbers of 32 bits and words of 64 bits.  An
    operation on them is not defined for all operands: a sum may be too
    large, a difference negative, a word may be shifted by its whole length.
    Here the compilation is written down with such operations, in the order
    in which they are carried out, and the compilation stops as soon as one
    is not defined.

    Masks and storage sizes are calculated once and stored with the fields.

    `Instruction.compile` does the same with natural numbers and calculates
    masks when they are asked for. -/

namespace IsaCodec.Machine

/-- Why a computation stops without a result. -/
inductive Halt (ε : Type) where
  /-- An operation is not defined for its operands. -/
  | trap
  | fault (fault : ε)

/-! ## Numbers of 32 bits -/

section numbers

variable {ε : Type}

def add (a b : Nat) : Except (Halt ε) Nat :=
  if a + b < UInt32.size then .ok (a + b) else .error .trap

def sub (a b : Nat) : Except (Halt ε) Nat :=
  if b ≤ a then .ok (a - b) else .error .trap

def mul (a b : Nat) : Except (Halt ε) Nat :=
  if a * b < UInt32.size then .ok (a * b) else .error .trap

/-- The difference modulo `2 ^ 32`. -/
def wrappingSub (a b : Nat) : Nat :=
  (a + (UInt32.size - b)) % UInt32.size

/-- The low 32 bits of a length or an index. -/
def truncate (n : Nat) : Nat :=
  n % UInt32.size

/-- Adds numbers one after the other. -/
def sum (ns : List Nat) : Except (Halt ε) Nat :=
  ns.foldlM add 0

end numbers

/-! ## Words of 64 bits -/

section words

variable {ε : Type}

def shiftLeft (word : Code) (n : Nat) : Except (Halt ε) Code :=
  if n < 64 then .ok (word <<< n) else .error .trap

def subWord (a b : Code) : Except (Halt ε) Code :=
  if b ≤ a then .ok (a - b) else .error .trap

/-- The word whose `len` least significant bits are set. -/
def lowMask (len : Nat) : Except (Halt ε) Code :=
  if 64 ≤ len then .ok (BitVec.allOnes 64)
  else do
    let above ← shiftLeft 1 len
    subWord above 1

/-- The word whose `len` bits from bit `lsb` on are set. -/
def maskAt (len lsb : Nat) : Except (Halt ε) Code := do
  let mask ← lowMask len
  shiftLeft mask lsb

end words

/-! ## Lengths -/

section lengths

variable {ε : Type}

def segmentLen (segment : Segment) : Nat :=
  truncate segment.pattern.length

def elementLen (element : Element) : Except (Halt ε) Nat :=
  sum (element.segments.map segmentLen)

def formatLen (elements : List Element) : Except (Halt ε) Nat := do
  let lengths ← elements.mapM elementLen
  sum lengths

def rangeLen (range : BitRange) : Except (Halt ε) Nat := do
  let distance ← sub range.msb range.lsb
  add distance 1

def subfieldLen (subfield : Subfield) : Except (Halt ε) Nat := do
  let distance ← sub subfield.msb subfield.lsb
  add distance 1

end lengths

/-- All elements must be `len` bits long. -/
def compareElements (len : Nat) : List Element → Except (Halt LayoutFault) Unit
  | [] => .ok ()
  | element :: rest => do
    let other ← elementLen element
    if other ≠ len then throw (.fault (.inconsistentElements len other))
    compareElements len rest

/-- All elements must be as long as the first one, and there must be a first one. -/
def checkElements : List Element → Except (Halt LayoutFault) Form
  | [] => .error .trap
  | first :: rest => do
    let len ← elementLen first
    compareElements len rest
    pure ⟨len, truncate (rest.length + 1)⟩

/-! ## Places and fixed bits -/

/-- Fixes one more bit, as a pattern says. -/
def fixBit (fixed : FixedBits) (word : Code) : PatternBit → FixedBits
  | .zero => ⟨fixed.mask ||| word, fixed.bits⟩
  | .one => ⟨fixed.mask ||| word, fixed.bits ||| word⟩
  | .any => fixed

/-- Fixes the bits of a pattern whose first bit is bit `msb`; bit `i` of the
    pattern is the next one. -/
def fixBits (msb i : Nat) (fixed : FixedBits) :
    List PatternBit → Except (Halt LayoutFault) FixedBits
  | [] => .ok fixed
  | bit :: rest => do
    let distance ← sub msb (truncate i)
    let word ← shiftLeft 1 distance
    fixBits msb (i + 1) (fixBit fixed word bit) rest

/-- Places segments below bit `position` and fixes the bits of their patterns. -/
def place (position : Nat) (fixed : FixedBits) :
    List Segment → Except (Halt LayoutFault) (List PlacedSegment × FixedBits)
  | [] => .ok ([], fixed)
  | segment :: rest => do
    let msb ← sub position 1
    let lsb ← sub position (segmentLen segment)
    let fixed ← fixBits msb 0 fixed segment.pattern
    let (placed, fixed) ← place lsb fixed rest
    pure (⟨segment, msb, lsb⟩ :: placed, fixed)

/-! ## Fields -/

/-- A subfield as it is stored. -/
structure StoredSubfield extends Subfield where
  /-- Its place among the subfields of the field. -/
  index : Nat
  /-- Its bits in the instruction. -/
  mask : Code

/-- A field as it is stored. -/
structure StoredField where
  name : String
  /-- Size of the smallest storage unit that holds the value. -/
  storageBits : Nat
  subfields : List StoredSubfield
  extras : Option Value

/-- The most significant instruction bit of the field. -/
def StoredField.msb (field : StoredField) : Nat :=
  (field.subfields.map (·.msb)).max?.getD 0

/-- The subfields of a segment's ranges, from instruction bit `msb` down, and the value bits that
    are in use after them. -/
def subfieldsBelow (field : String) (msb index : Nat) (used : Code) :
    List BitRange → Except (Halt LayoutFault) (List StoredSubfield × Code)
  | [] => .ok ([], used)
  | range :: rest => do
    let width ← rangeLen range
    let bits ← maskAt width range.lsb
    match Layout.lowestCommonBit? used bits with
    | some bit => throw (.fault (.overlap field bit))
    | none =>
      let above ← add msb 1
      let lsb ← sub above width
      let mask ← maskAt width lsb
      let (subfields, used) ←
        subfieldsBelow field (wrappingSub msb width) (index + 1) (used ||| bits) rest
      pure (⟨⟨msb, lsb, range.lsb⟩, index, mask⟩ :: subfields, used)

/-- The subfields of a field whose segments all have ranges. -/
def rangedSubfields (field : String) (index : Nat) (used : Code) :
    List PlacedSegment → Except (Halt LayoutFault) (List StoredSubfield)
  | [] => .ok []
  | placed :: rest =>
    let ranges := placed.segment.ranges
    match ranges.find? (!·.isValid) with
    | some range => .error (.fault (.range field range.msb range.lsb))
    | none => do
      let widths ← ranges.mapM rangeLen
      let covered ← sum widths
      let bits := segmentLen placed.segment
      if covered ≠ bits then throw (.fault (.rangeWidth field bits covered))
      let (subfields, used) ← subfieldsBelow field placed.msb index used ranges
      let others ← rangedSubfields field (index + subfields.length) used rest
      pure (subfields ++ others)

/-- The subfields of segments without ranges, which hold the bits of the value below bit `top`. -/
def subfieldsUnder (top index : Nat) :
    List PlacedSegment → Except (Halt LayoutFault) (List StoredSubfield)
  | [] => .ok []
  | placed :: rest => do
    let lsbInField ← sub top (segmentLen placed.segment)
    let mask ← maskAt (segmentLen placed.segment) placed.lsb
    let others ← subfieldsUnder lsbInField (index + 1) rest
    pure (⟨⟨placed.msb, placed.lsb, lsbInField⟩, index, mask⟩ :: others)

/-- The subfields of a field without ranges. -/
def wholeSubfields (placed : List PlacedSegment) :
    Except (Halt LayoutFault) (List StoredSubfield) := do
  let top ← sum (placed.map (segmentLen ·.segment))
  subfieldsUnder top 0 placed

/-- The subfields of a field.  Either all of its segments have ranges or none has. -/
def subfields (field : String) (placed : List PlacedSegment) :
    Except (Halt LayoutFault) (List StoredSubfield) :=
  if placed.all (!·.segment.ranges.isEmpty) then rangedSubfields field 0 0 placed
  else if placed.all (·.segment.ranges.isEmpty) then wholeSubfields placed
  else .error (.fault (.mixedRanges field))

/-- The number of the value's bits up to the highest one in a subfield. -/
def subfieldTop (subfield : StoredSubfield) : Except (Halt LayoutFault) Nat := do
  let width ← subfieldLen subfield.toSubfield
  add subfield.lsbInField width

/-- A field with the size of its value. -/
def field (name : String) (extras : Option Value) (placed : List PlacedSegment) :
    Except (Halt LayoutFault) StoredField := do
  let subfields ← subfields name placed
  let tops ← subfields.mapM subfieldTop
  pure ⟨name, Code.storageBits (tops.max?.getD 1), subfields, extras⟩

/-! ## Instructions -/

/-- A layout as it is stored. -/
structure StoredLayout where
  form : Form
  fixed : FixedBits
  fields : List StoredField

/-- An instruction without conditions as it is stored. -/
structure StoredInstruction extends StoredLayout where
  name : String
  format : String
  /-- Size of the smallest storage unit that holds the instruction. -/
  storageBits : Nat
  extras : Option Value

/-- Extras may belong to fields of the instruction only. -/
def checkExtras (extras : Dictionary Value) (fields : List StoredField) :
    Except (Halt LayoutFault) Unit :=
  match extras.names.find? (fun name => !fields.any (·.name == name)) with
  | some name => .error (.fault (.undefinedField name))
  | none => .ok ()

/-- The layout of an instruction with this format. -/
def ofFormat (format : Format) (extras : Dictionary Value) :
    Except (Halt LayoutFault) StoredLayout := do
  let form ← checkElements format.elements
  let total ← formatLen format.elements
  if total > 64 then throw (.fault (.width total))
  let (placed, fixed) ← place total .none format.segments
  let fields ← (Layout.fieldNames placed).mapM fun name =>
    field name (extras.get? name) (Layout.segmentsOf name placed)
  checkExtras extras fields
  pure ⟨form, fixed, sortBy (fun a b => b.msb ≤ a.msb) fields⟩

/-- Attributes a fault to an instruction. -/
def Halt.attribute (instruction : String) : Halt LayoutFault → Halt CompileError
  | .trap => .trap
  | .fault cause => .fault (.layout ⟨instruction, cause⟩)

/-- Compiles a description without conditions. -/
def compile (description : InstructionDescription) :
    Except (Halt CompileError) StoredInstruction :=
  match Format.parse description.format with
  | .error error => .error (.fault (.layout ⟨description.name, .format error⟩))
  | .ok format => do
    let layout ← (ofFormat format description.fieldExtras).mapError (.attribute description.name)
    let bits ← mul layout.form.elementBitLen layout.form.elementCount
    pure {
      toStoredLayout := layout
      name := description.name
      format := description.format
      storageBits := Code.storageBits bits
      extras := description.extras }

end IsaCodec.Machine
