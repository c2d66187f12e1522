import IsaCodec.Dictionary
import IsaCodec.Field
import IsaCodec.FixedBits
import IsaCodec.Layout.Error
import IsaCodec.Sorting

/-! # Bit layouts

    The layout of an instruction follows from its encoding format: the form,
    the fixed bits, and the fields with the place of every subfield.  Bits
    are counted from the least significant one of the whole instruction, and
    the first element of the format is the most significant one.

    The faults of a format are looked for in this order: elements of unequal
    length, more than 64 bits, the faults of each field in the order in which
    the fields first appear, and extras for a field that does not exist. -/

namespace IsaCodec

/-- Where the bits of an instruction are and what they mean. -/
structure Layout where
  form : Form
  fixed : FixedBits
  /-- The fields, in descending order of their most significant bit. -/
  fields : List Field

/-- A segment of a format and the instruction bits that it stands for. -/
structure PlacedSegment where
  segment : Segment
  msb : Nat
  lsb : Nat

namespace Layout

/-! ## Places -/

/-- Places segments below bit `position`, one after the other. -/
def place (position : Nat) : List Segment → List PlacedSegment
  | [] => []
  | segment :: rest =>
    ⟨segment, position - 1, position - segment.bitLen⟩ ::
      place (position - segment.bitLen) rest

/-- The names of fields, in the order in which they first appear. -/
def fieldNames (placed : List PlacedSegment) : List String :=
  (placed.filterMap (·.segment.name)).eraseDups

/-- The segments of one field. -/
def segmentsOf (field : String) (placed : List PlacedSegment) : List PlacedSegment :=
  placed.filter (·.segment.name == some field)

/-! ## Subfields -/

/-- The lowest bit that two words have in common, if there is one. -/
def lowestCommonBit? (a b : Code) : Option Nat :=
  (List.range 64).find? (a &&& b).getLsbD

/-- Adds the value bits of ranges to those that are in use already. -/
def reserve (field : String) (used : Code) : List BitRange → Except LayoutFault Code
  | [] => .ok used
  | range :: rest =>
    let bits := Code.lowMask range.width <<< range.lsb
    match lowestCommonBit? used bits with
    | some bit => .error (.overlap field bit)
    | none => reserve field (used ||| bits) rest

/-- The subfields of a segment's ranges, from instruction bit `msb` down. -/
def subfieldsBelow (msb : Nat) : List BitRange → List Subfield
  | [] => []
  | range :: rest =>
    ⟨msb, msb + 1 - range.width, range.lsb⟩ :: subfieldsBelow (msb - range.width) rest

/-- The subfields of a field whose segments all have ranges; the value bits
    in `used` belong to earlier segments. -/
def rangedSubfields (field : String) (used : Code) :
    List PlacedSegment → Except LayoutFault (List Subfield)
  | [] => .ok []
  | placed :: rest =>
    let ranges := placed.segment.ranges
    let bits := placed.segment.bitLen
    let covered := BitRange.totalWidth ranges
    match ranges.find? (!·.isValid) with
    | some range => .error (.range field range.msb range.lsb)
    | none =>
      if covered ≠ bits then .error (.rangeWidth field bits covered)
      else do
        let used ← reserve field used ranges
        let subfields ← rangedSubfields field used rest
        pure (subfieldsBelow placed.msb ranges ++ subfields)

/-- Number of instruction bits of all segments of a list. -/
def totalBits (placed : List PlacedSegment) : Nat :=
  placed.foldr (fun placed total => placed.segment.bitLen + total) 0

/-- The subfields of a field without ranges: each segment holds the bits of
    the value above those of the segments after it. -/
def wholeSubfields : List PlacedSegment → List Subfield
  | [] => []
  | placed :: rest =>
    ⟨placed.msb, placed.lsb, totalBits rest⟩ :: wholeSubfields rest

/-- The subfields of a field.  Either all of its segments have ranges or none has. -/
def subfields (field : String) (placed : List PlacedSegment) :
    Except LayoutFault (List Subfield) :=
  if placed.all (!·.segment.ranges.isEmpty) then rangedSubfields field 0 placed
  else if placed.all (·.segment.ranges.isEmpty) then .ok (wholeSubfields placed)
  else .error (.mixedRanges field)

/-! ## Layouts -/

/-- All elements must be as long as the first one. -/
def checkElements : List Element → Except LayoutFault Form
  | [] => .error (.format .empty)
  | first :: rest =>
    match rest.find? (·.bitLen ≠ first.bitLen) with
    | some other => .error (.inconsistentElements first.bitLen other.bitLen)
    | none => .ok ⟨first.bitLen, rest.length + 1⟩

/-- Extras may belong to fields of the instruction only. -/
def checkExtras (extras : Dictionary Value) (fields : List Field) : Except LayoutFault Unit :=
  match extras.names.find? (fun name => !fields.any (·.name == name)) with
  | some name => .error (.undefinedField name)
  | none => .ok ()

/-- The layout of an instruction with this format. -/
def ofFormat (format : Format) (extras : Dictionary Value) : Except LayoutFault Layout := do
  let form ← checkElements format.elements
  if format.bitLen > 64 then throw (.width format.bitLen)
  let placed := place format.bitLen format.segments
  let fields ← (fieldNames placed).mapM fun name => do
    let subfields ← subfields name (segmentsOf name placed)
    pure (⟨name, subfields, extras.get? name⟩ : Field)
  checkExtras extras fields
  pure {
    form
    fixed := FixedBits.ofPattern format.pattern
    fields := sortBy (fun a b => b.msb ≤ a.msb) fields }

/-- Reads the format of an instruction. -/
def parseFormat (instruction text : String) : Except LayoutError Format :=
  (Format.parse text).mapError (⟨instruction, .format ·⟩)

/-- The layout of an instruction whose format is given as text. -/
def compile (instruction format : String) (extras : Dictionary Value) :
    Except LayoutError Layout :=
  match Format.parse format with
  | .error error => .error ⟨instruction, .format error⟩
  | .ok format => (ofFormat format extras).mapError (⟨instruction, ·⟩)

end Layout

end IsaCodec
