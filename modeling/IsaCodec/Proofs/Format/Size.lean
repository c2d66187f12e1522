import Mathlib.Algebra.Order.BigOperators.Group.List
import Mathlib.Data.String.Basic
import IsaCodec.Proofs.Format.Parsing
import IsaCodec.Proofs.Format.Shape

/-! # Sizes of formats

    A text describes a format that is not larger than the text: each bit of a
    pattern has its own character, and each range has a number.  The bound is
    carried from the lexemes to the format along the rules of the grammar.

    * **`Format.FitsIn`** — numbers of bits, elements and ranges up to a bound.
    * **`fitsIn_of_parse`** — a format that was read fits in the number of
      bytes of the text. -/

namespace IsaCodec

/-! ## Lengths of parts -/

theorem Element.bitLen_eq_sum (element : Element) :
    element.bitLen = (element.segments.map Segment.bitLen).sum := by
  rw [bitLen, pattern, List.length_flatMap]
  rfl

theorem Element.bitLen_le_of_mem {element : Element} {segment : Segment}
    (h : segment ∈ element.segments) : segment.bitLen ≤ element.bitLen := by
  rw [element.bitLen_eq_sum]
  exact List.le_sum_of_mem (List.mem_map_of_mem h)

namespace Format

theorem bitLen_eq_sum (format : Format) :
    format.bitLen = (format.elements.map Element.bitLen).sum := by
  rw [bitLen, pattern, List.length_flatMap]
  rfl

theorem bitLen_le_of_mem {format : Format} {element : Element} (h : element ∈ format.elements) :
    element.bitLen ≤ format.bitLen := by
  rw [format.bitLen_eq_sum]
  exact List.le_sum_of_mem (List.mem_map_of_mem h)

/-- Every element has at least one bit. -/
theorem IsProper.length_elements_le {format : Format} (h : format.IsProper) :
    format.elements.length ≤ format.bitLen := by
  have hpos : ∀ n ∈ format.elements.map Element.bitLen, 1 ≤ n := by
    intro n hn
    obtain ⟨element, helement, rfl⟩ := List.mem_map.1 hn
    obtain ⟨segment, hsegment⟩ := List.exists_mem_of_ne_nil _ (h.segments element helement)
    have hbits := h.segment_bitLen_pos (List.mem_flatMap.2 ⟨element, helement, hsegment⟩)
    have hle := Element.bitLen_le_of_mem hsegment
    omega
  have hsum := List.length_le_sum_of_one_le _ hpos
  rwa [List.length_map, ← bitLen_eq_sum] at hsum

/-! ## Lexemes -/

/-- A number of characters that every spelling of the lexeme has. -/
def Lexeme.size : Lexeme → Nat
  | .pattern bits => bits.length
  | _ => 1

/-- The size of all lexemes of a list. -/
def totalSize (lexemes : List Lexeme) : Nat :=
  (lexemes.map Lexeme.size).sum

@[simp] theorem totalSize_nil : totalSize [] = 0 := rfl

@[simp] theorem totalSize_cons (lexeme : Lexeme) (lexemes : List Lexeme) :
    totalSize (lexeme :: lexemes) = lexeme.size + totalSize lexemes := by
  simp [totalSize]

@[simp] theorem totalSize_append (lexemes more : List Lexeme) :
    totalSize (lexemes ++ more) = totalSize lexemes + totalSize more := by
  simp [totalSize]

theorem Spells.size_le {piece : List Char} {lexeme : Lexeme} (h : Spells piece lexeme) :
    lexeme.size ≤ piece.length := by
  cases h with
  | mark c => exact Nat.le_refl 1
  | pattern hbits =>
    rw [List.length_map]
    exact Nat.le_refl _
  | name hword =>
    obtain ⟨c, run, rfl, -, -⟩ := hword
    exact Nat.succ_pos _
  | number hdigits hn => exact List.length_pos_iff.2 hdigits.1

theorem Spaced.size_le {s : List Char} {lexemes : List Lexeme} (h : Spaced s lexemes) :
    totalSize lexemes ≤ s.length := by
  induction h with
  | nil => exact Nat.le_refl 0
  | cons hblanks hspells hrest ih =>
    have hpiece := hspells.size_le
    rw [totalSize_cons, List.length_append, List.length_append]
    omega

/-! ## Rules -/

section rules

variable {α : Type} {isPart : List Lexeme → α → Prop} {s : List Lexeme}

/-- Separators only add to the size of the parts. -/
theorem sum_le_of_separated {separator : List Lexeme → Prop} {xs : List α} (weight : α → Nat)
    (hpart : ∀ s x, isPart s x → weight x ≤ totalSize s) (h : Separated separator isPart s xs) :
    (xs.map weight).sum ≤ totalSize s := by
  -- The induction is on the derivation: one item, or an item, a separator and the rest.
  induction h with
  | one hitem => simpa using hpart _ _ hitem
  | more hitem _ _ ih =>
    have hfirst := hpart _ _ hitem
    rw [List.map_cons, List.sum_cons, totalSize_append, totalSize_append]
    omega

theorem IsRange.one_le {range : BitRange} (h : IsRange s range) : 1 ≤ totalSize s := by
  cases h <;> simp [Lexeme.size]

theorem IsRanges.length_le {ranges : List BitRange} (h : IsRanges s ranges) :
    ranges.length ≤ totalSize s := by
  cases h with
  | missing => exact Nat.le_refl 0
  | list hranges =>
    -- Weighed by one each, the ranges are counted.
    have hsum := sum_le_of_separated (fun _ => 1) (fun _ _ h => IsRange.one_le h) hranges
    simp at hsum ⊢
    omega

/-- The bits of a segment and its ranges, counted together. -/
def segmentWeight (segment : Segment) : Nat :=
  segment.bitLen + segment.ranges.length

theorem IsSegment.weight_le {segment : Segment} (h : IsSegment s segment) :
    segmentWeight segment ≤ totalSize s := by
  cases h with
  | pattern bits => simp [segmentWeight, Segment.bitLen, Lexeme.size]
  | named bits name hranges =>
    have hlength := hranges.length_le
    simp only [segmentWeight, Segment.bitLen, totalSize_cons, Lexeme.size]
    omega

theorem IsElement.weight_le {element : Element} (h : IsElement s element) :
    (element.segments.map segmentWeight).sum ≤ totalSize s :=
  sum_le_of_separated segmentWeight (fun _ _ hsegment => IsSegment.weight_le hsegment) h

theorem IsFormat.weight_le {format : Format} (h : IsFormat s format) :
    (format.segments.map segmentWeight).sum ≤ totalSize s := by
  have hsum := sum_le_of_separated (fun element => (element.segments.map segmentWeight).sum)
    (fun _ _ helement => IsElement.weight_le helement) h
  rw [segments, List.map_flatMap, List.flatMap_def, List.sum_flatten, List.map_map]
  exact hsum

end rules

/-! ## Texts -/

theorem length_le_utf8ByteSize (text : String) : text.toList.length ≤ text.utf8ByteSize := by
  have hlist : ∀ s : List Char, s.length ≤ String.utf8Len s := by
    intro s
    induction s with
    | nil => exact Nat.zero_le _
    | cons c s ih =>
      have hpos := c.utf8Size_pos
      rw [List.length_cons, String.utf8Len]
      omega
  have hsize := String.utf8ByteSize_ofList text.toList
  rw [String.ofList_toList] at hsize
  rw [hsize]
  exact hlist text.toList

theorem Describes.weight_le {text : String} {format : Format} (h : Describes text format) :
    (format.segments.map segmentWeight).sum ≤ text.utf8ByteSize := by
  obtain ⟨s, blanks, lexemes, htext, -, hspaced, hformat⟩ := h
  have hbytes := length_le_utf8ByteSize text
  have hlexemes := hspaced.size_le
  have hweight := IsFormat.weight_le hformat
  rw [htext, List.length_append] at hbytes
  omega

/-- The numbers of bits, elements and ranges of a format are up to `n`. -/
structure FitsIn (format : Format) (n : Nat) : Prop where
  bitLen : format.bitLen ≤ n
  elements : format.elements.length ≤ n
  ranges : ∀ segment ∈ format.segments, segment.ranges.length ≤ n

/-- **No format is larger than its text.** -/
theorem fitsIn_of_parse {text : String} {format : Format} (h : parse text = .ok format) :
    format.FitsIn text.utf8ByteSize := by
  have hweight := (parse_eq_ok.1 h).weight_le
  have hbits : format.bitLen = (format.segments.map Segment.bitLen).sum := by
    rw [Format.bitLen, pattern_eq_flatMap_segments, List.length_flatMap]
    rfl
  have hle : format.bitLen ≤ (format.segments.map segmentWeight).sum := by
    rw [hbits]
    exact List.sum_le_sum fun segment _ => Nat.le_add_right _ _
  refine ⟨by omega, ?_, fun segment hsegment => ?_⟩
  · have helements := (isProper_of_parse h).length_elements_le
    omega
  · have hsegment := List.le_sum_of_mem (List.mem_map_of_mem (f := segmentWeight) hsegment)
    rw [segmentWeight] at hsegment
    omega

end Format

end IsaCodec
