/-! # Encoding formats

    The syntax tree of an encoding format such as
    `000|x:imm[5]|xxxxx:rd|xxxxx:imm[4:0]|01`.  A format has elements, an
    element has segments, and a segment is a bit pattern that may belong to
    a field, in whole or by explicit ranges of the field's bits. -/

namespace IsaCodec

/-- One bit of a pattern. -/
inductive PatternBit where
  | zero
  | one
  /-- Either value. -/
  | any
  deriving DecidableEq

namespace PatternBit

/-- The character that stands for the bit. -/
def char : PatternBit → Char
  | zero => '0'
  | one => '1'
  | any => 'x'

/-- The bit that a character stands for. -/
def ofChar? : Char → Option PatternBit
  | '0' => some zero
  | '1' => some one
  | 'x' => some any
  | _ => none

@[simp] theorem ofChar?_char (bit : PatternBit) : ofChar? bit.char = some bit := by
  cases bit <;> rfl

theorem char_of_ofChar? {c : Char} {bit : PatternBit} (h : ofChar? c = some bit) :
    bit.char = c := by
  unfold ofChar? at h
  split at h <;> simp_all [char] <;> subst h <;> rfl

end PatternBit

/-! ## Ranges -/

/-- Bits `msb` down to `lsb` of a field. -/
structure BitRange where
  msb : Nat
  lsb : Nat
  deriving DecidableEq

/-- Number of bits of a range whose ends are in order. -/
def BitRange.width (range : BitRange) : Nat :=
  range.msb - range.lsb + 1

/-- The ends of the range are in order and inside a 64-bit value. -/
def BitRange.isValid (range : BitRange) : Bool :=
  range.lsb ≤ range.msb && range.msb < 64

/-- Number of bits of all ranges of a list. -/
def BitRange.totalWidth (ranges : List BitRange) : Nat :=
  ranges.foldr (fun range total => range.width + total) 0

/-! ## Formats -/

/-- A bit pattern, most significant bit first, and the field it belongs to. -/
structure Segment where
  pattern : List PatternBit
  name : Option String
  /-- Explicit ranges of the field's bits; none if not given. -/
  ranges : List BitRange
  deriving DecidableEq

/-- Number of instruction bits in the segment: fewer than `2 ^ 32`, as no text of a format is that
    long. -/
def Segment.bitLen (segment : Segment) : Nat :=
  segment.pattern.length

/-- The segments of one encoding element, most significant first. -/
structure Element where
  segments : List Segment
  deriving DecidableEq

/-- The bit patterns of all segments in order. -/
def Element.pattern (element : Element) : List PatternBit :=
  element.segments.flatMap Segment.pattern

/-- Number of instruction bits in the element. -/
def Element.bitLen (element : Element) : Nat :=
  element.pattern.length

/-- An encoding format, most significant element first. -/
structure Format where
  elements : List Element
  deriving DecidableEq

namespace Format

/-- The segments of all elements in order. -/
def segments (format : Format) : List Segment :=
  format.elements.flatMap Element.segments

/-- The bit patterns of all elements in order. -/
def pattern (format : Format) : List PatternBit :=
  format.elements.flatMap Element.pattern

/-- Number of instruction bits. -/
def bitLen (format : Format) : Nat :=
  format.pattern.length

theorem pattern_eq_flatMap_segments (format : Format) :
    format.pattern = format.segments.flatMap Segment.pattern := by
  simp only [pattern, segments, List.flatMap_assoc]
  rfl

end Format

end IsaCodec
