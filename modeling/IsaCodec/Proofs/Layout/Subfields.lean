import IsaCodec.Proofs.Layout.Bits
import IsaCodec.Proofs.Outcome

/-! # Subfields of a field

    The subfields that the layout makes from the segments of one field.  A
    segment stands for a run of instruction bits; in order, they hold the
    bits of the value that its ranges name, or those that come next if there
    are no ranges.

    * **`rangedSubfields_eq_ok`** — segments with ranges are accepted exactly
      if their ranges are legal and name no bit twice.
    * **`subfields_eq_ok`** — what the subfields of accepted segments are.
    * **`Divide`** — which instruction bits and which bits of the value the
      subfields have, and in which order. -/

namespace IsaCodec

/-! ## Ranges -/

namespace BitRange

/-- The bits of a range, in the order in which a segment holds them. -/
def bits (range : BitRange) : List Nat :=
  descending range.lsb range.width

/-- The bits of a range as a word. -/
def mask (range : BitRange) : Code :=
  Code.lowMask range.width <<< range.lsb

theorem lt_of_mem_bits {range : BitRange} (hvalid : range.isValid) {bit : Nat}
    (hbit : bit ∈ range.bits) : bit < 64 := by
  rw [isValid, Bool.and_eq_true, decide_eq_true_iff, decide_eq_true_iff] at hvalid
  rw [bits, mem_descending, width] at hbit
  omega

theorem getLsbD_mask {range : BitRange} (hvalid : range.isValid) {bit : Nat} :
    range.mask.getLsbD bit = true ↔ bit ∈ range.bits := by
  have hlt : bit ∈ range.bits → bit < 64 := lt_of_mem_bits hvalid
  rw [bits, mem_descending] at *
  rw [mask, Code.getLsbD_lowMask_shiftLeft, decide_eq_true_iff]
  omega

theorem getLsbD_union_mask {ranges : List BitRange} (hvalid : ∀ range ∈ ranges, range.isValid)
    {bit : Nat} :
    (Code.union (ranges.map mask)).getLsbD bit = true ↔ bit ∈ ranges.flatMap bits := by
  simp only [Code.getLsbD_union, List.any_map, List.any_eq_true, Function.comp_apply,
    List.mem_flatMap]
  constructor
  · intro h
    obtain ⟨range, hrange, hbit⟩ := h
    exact ⟨range, hrange, (getLsbD_mask (hvalid range hrange)).1 hbit⟩
  · intro h
    obtain ⟨range, hrange, hbit⟩ := h
    exact ⟨range, hrange, (getLsbD_mask (hvalid range hrange)).2 hbit⟩

@[simp] theorem totalWidth_nil : totalWidth [] = 0 := rfl

@[simp] theorem totalWidth_cons (range : BitRange) (ranges : List BitRange) :
    totalWidth (range :: ranges) = range.width + totalWidth ranges := rfl

end BitRange

namespace Segment

/-- The bits of the value that the ranges of a segment name. -/
def namedBits (segment : Segment) : List Nat :=
  segment.ranges.flatMap BitRange.bits

/-- Ranges have to be in order, and to have as many bits as the pattern. -/
def HasLegalRanges (segment : Segment) : Prop :=
  (∀ range ∈ segment.ranges, range.isValid) ∧
    BitRange.totalWidth segment.ranges = segment.bitLen

theorem HasLegalRanges.lt_of_mem {segment : Segment} (hlegal : segment.HasLegalRanges) {bit : Nat}
    (hbit : bit ∈ segment.namedBits) : bit < 64 := by
  obtain ⟨range, hrange, hbit⟩ := List.mem_flatMap.1 hbit
  exact BitRange.lt_of_mem_bits (hlegal.1 range hrange) hbit

end Segment

namespace Layout

/-! ## Reserved bits -/

theorem lowestCommonBit?_eq_none {a b : Code} :
    lowestCommonBit? a b = none ↔ ∀ bit, b.getLsbD bit = true → a.getLsbD bit = false := by
  rw [lowestCommonBit?, List.find?_eq_none]
  simp only [List.mem_range, BitVec.getLsbD_and, Bool.and_eq_true, not_and, Bool.not_eq_true]
  constructor
  · intro h bit hb
    by_contra ha
    rw [Bool.not_eq_false] at ha
    have := h bit (BitVec.lt_of_getLsbD hb) ha
    rw [hb] at this
    cases this
  · intro h bit _ ha
    by_contra hb
    rw [Bool.not_eq_false] at hb
    rw [h bit hb] at ha
    cases ha

theorem reserve_cons_of_common {field : String} {used : Code} {range : BitRange}
    {ranges : List BitRange} {bit : Nat} (h : lowestCommonBit? used range.mask = some bit) :
    reserve field used (range :: ranges) = .error (.overlap field bit) := by
  rw [BitRange.mask] at h
  simp only [reserve, h]

theorem reserve_cons_of_free {field : String} {used : Code} {range : BitRange}
    {ranges : List BitRange} (h : lowestCommonBit? used range.mask = none) :
    reserve field used (range :: ranges) = reserve field (used ||| range.mask) ranges := by
  rw [BitRange.mask] at *
  simp only [reserve, h]

/-- Bits are free after others have been reserved if they were free before and are not among
    those. -/
theorem forall_free_or {used word : Code} {named bits : List Nat}
    (hword : ∀ bit, word.getLsbD bit = true ↔ bit ∈ named) :
    (∀ bit ∈ bits, (used ||| word).getLsbD bit = false) ↔
      (∀ bit ∈ bits, used.getLsbD bit = false) ∧ named.Disjoint bits := by
  simp only [BitVec.getLsbD_or, Bool.or_eq_false_iff, ← Bool.not_eq_true (word.getLsbD _), hword]
  constructor
  · intro h
    exact ⟨fun bit hbit => (h bit hbit).1, fun bit hnamed hbit => (h bit hbit).2 hnamed⟩
  · intro h bit hbit
    obtain ⟨hfree, hdisjoint⟩ := h
    exact ⟨hfree bit hbit, fun hnamed => hdisjoint hnamed hbit⟩

/-- Bits can be reserved if none of them is in use and none is named twice. -/
theorem reserve_eq_ok {field : String} {used used' : Code} {ranges : List BitRange}
    (hvalid : ∀ range ∈ ranges, range.isValid) :
    reserve field used ranges = .ok used' ↔
      (ranges.flatMap BitRange.bits).Nodup ∧
        (∀ bit ∈ ranges.flatMap BitRange.bits, used.getLsbD bit = false) ∧
        used' = used ||| Code.union (ranges.map BitRange.mask) := by
  induction ranges generalizing used with
  | nil => simp [reserve, eq_comm (a := used')]
  | cons range ranges ih =>
    obtain ⟨hrange, hranges⟩ := List.forall_mem_cons.1 hvalid
    have hfree : lowestCommonBit? used range.mask = none ↔
        ∀ bit ∈ range.bits, used.getLsbD bit = false := by
      simp only [lowestCommonBit?_eq_none, BitRange.getLsbD_mask hrange]
    cases hcommon : lowestCommonBit? used range.mask with
    | some bit =>
      have hused : ¬∀ bit ∈ range.bits, used.getLsbD bit = false := by
        rw [← hfree, hcommon]
        exact Option.some_ne_none bit
      rw [reserve_cons_of_common hcommon]
      constructor
      · intro h
        cases h
      · intro h
        obtain ⟨-, hall, -⟩ := h
        rw [List.flatMap_cons] at hall
        exact absurd (fun bit hbit => hall bit (List.mem_append_left _ hbit)) hused
    | none =>
      have hused := hfree.1 hcommon
      rw [reserve_cons_of_free hcommon, ih hranges,
        forall_free_or fun _ => BitRange.getLsbD_mask hrange, List.flatMap_cons,
        List.nodup_append', List.map_cons, Code.union_cons, BitVec.or_assoc,
        List.forall_mem_append]
      constructor
      · intro h
        obtain ⟨hnodup, ⟨hfree', hdisjoint⟩, heq⟩ := h
        exact ⟨⟨nodup_descending _ _, hnodup, hdisjoint⟩, ⟨hused, hfree'⟩, heq⟩
      · intro h
        obtain ⟨⟨-, hnodup, hdisjoint⟩, ⟨-, hfree'⟩, heq⟩ := h
        exact ⟨hnodup, ⟨hfree', hdisjoint⟩, heq⟩

/-! ## Segments with ranges -/

theorem rangedSubfields_cons_of_legal {field : String} {used : Code} {first : PlacedSegment}
    {rest : List PlacedSegment} (hlegal : first.segment.HasLegalRanges) :
    rangedSubfields field used (first :: rest) =
      reserve field used first.segment.ranges >>= fun used =>
        rangedSubfields field used rest >>= fun subfields =>
          pure (subfieldsBelow first.msb first.segment.ranges ++ subfields) := by
  obtain ⟨hvalid, hwidth⟩ := hlegal
  have hnone : first.segment.ranges.find? (!·.isValid) = none := by simpa using hvalid
  rw [rangedSubfields, hnone]
  simp only [hwidth, ne_eq, not_true_eq_false, if_false]

theorem rangedSubfields_cons_of_not_legal (field : String) (used : Code) {first : PlacedSegment}
    (rest : List PlacedSegment) (hillegal : ¬first.segment.HasLegalRanges) :
    ∃ fault, rangedSubfields field used (first :: rest) = .error fault := by
  rw [rangedSubfields]
  cases hinvalid : first.segment.ranges.find? (!·.isValid) with
  | some range => exact ⟨_, rfl⟩
  | none =>
    -- All ranges are in order, so it is their width that is wrong.
    have hvalid : ∀ range ∈ first.segment.ranges, range.isValid := by simpa using hinvalid
    have hwidth : BitRange.totalWidth first.segment.ranges ≠ first.segment.bitLen :=
      fun hwidth => hillegal ⟨hvalid, hwidth⟩
    exact ⟨_, if_pos hwidth⟩

/-- Segments with ranges are accepted exactly if the ranges of each are legal and no bit of the
    value is named twice or in use before. -/
theorem rangedSubfields_eq_ok {field : String} {used : Code} {placed : List PlacedSegment}
    {subfields : List Subfield} :
    rangedSubfields field used placed = .ok subfields ↔
      (∀ p ∈ placed, p.segment.HasLegalRanges) ∧
        (placed.flatMap fun p => p.segment.namedBits).Nodup ∧
        (∀ bit ∈ placed.flatMap fun p => p.segment.namedBits, used.getLsbD bit = false) ∧
        subfields = placed.flatMap fun p => subfieldsBelow p.msb p.segment.ranges := by
  induction placed generalizing used subfields with
  | nil =>
    constructor
    · intro h
      obtain rfl := Except.ok.inj h
      exact ⟨by simp, List.nodup_nil, by simp, rfl⟩
    · intro h
      obtain ⟨-, -, -, rfl⟩ := h
      rfl
  | cons first rest ih =>
    by_cases hfirst : first.segment.HasLegalRanges
    · -- The first segment reserves its bits, and those of the others must be free after it.
      simp only [rangedSubfields_cons_of_legal hfirst, bind_eq_ok, reserve_eq_ok hfirst.1, ih,
        pure_eq_ok, List.flatMap_cons, List.nodup_append', List.forall_mem_append,
        List.forall_mem_cons]
      constructor
      · intro h
        obtain ⟨_, ⟨hnodup, hused, rfl⟩, _, ⟨hlegal, hnodup', hused', rfl⟩, rfl⟩ := h
        obtain ⟨hused', hdisjoint⟩ :=
          (forall_free_or fun _ => BitRange.getLsbD_union_mask hfirst.1).1 hused'
        exact ⟨⟨hfirst, hlegal⟩, ⟨hnodup, hnodup', hdisjoint⟩, ⟨hused, hused'⟩, rfl⟩
      · intro h
        obtain ⟨⟨-, hlegal⟩, ⟨hnodup, hnodup', hdisjoint⟩, ⟨hused, hused'⟩, rfl⟩ := h
        have hused'' :=
          (forall_free_or fun _ => BitRange.getLsbD_union_mask hfirst.1).2 ⟨hused', hdisjoint⟩
        exact ⟨_, ⟨hnodup, hused, rfl⟩, _, ⟨hlegal, hnodup', hused'', rfl⟩, rfl⟩
    · obtain ⟨fault, hfault⟩ := rangedSubfields_cons_of_not_legal field used rest hfirst
      rw [hfault]
      constructor
      · intro h
        cases h
      · intro h
        exact absurd (h.1 first List.mem_cons_self) hfirst

/-- The ranges of a segment divide its instruction bits from the highest one down. -/
theorem subfieldsBelow_bits {msb : Nat} {ranges : List BitRange}
    (hroom : BitRange.totalWidth ranges ≤ msb + 1) :
    (subfieldsBelow msb ranges).flatMap Subfield.bits =
      descending (msb + 1 - BitRange.totalWidth ranges) (BitRange.totalWidth ranges) := by
  induction ranges generalizing msb with
  | nil => rfl
  | cons range ranges ih =>
    have hpos : 0 < range.width := Nat.succ_pos _
    rw [BitRange.totalWidth_cons] at *
    rw [subfieldsBelow, List.flatMap_cons, ih (by omega), descending_add]
    congr 1
    · simp only [Subfield.bits, Subfield.width]
      congr 1 <;> omega
    · -- At the lowest bit there is no place to go on from, but then no range is left.
      rcases Nat.eq_zero_or_pos (BitRange.totalWidth ranges) with hnone | hsome
      · rw [hnone, descending_zero, descending_zero]
      · congr 1
        omega

theorem subfieldsBelow_bitsInField {msb : Nat} {ranges : List BitRange}
    (hroom : BitRange.totalWidth ranges ≤ msb + 1) :
    (subfieldsBelow msb ranges).flatMap Subfield.bitsInField =
      ranges.flatMap BitRange.bits := by
  induction ranges generalizing msb with
  | nil => rfl
  | cons range ranges ih =>
    have hpos : 0 < range.width := Nat.succ_pos _
    rw [BitRange.totalWidth_cons] at hroom
    rw [subfieldsBelow, List.flatMap_cons, List.flatMap_cons, ih (by omega)]
    congr 1
    simp only [Subfield.bitsInField, Subfield.width, BitRange.bits]
    congr 1
    omega

theorem lsb_le_msb_of_mem_subfieldsBelow {msb : Nat} {ranges : List BitRange}
    {subfield : Subfield} (hmem : subfield ∈ subfieldsBelow msb ranges) :
    subfield.lsb ≤ subfield.msb := by
  induction ranges generalizing msb with
  | nil => cases hmem
  | cons range ranges ih =>
    rw [subfieldsBelow, List.mem_cons] at hmem
    rcases hmem with rfl | hmem
    · have hpos : 0 < range.width := Nat.succ_pos _
      show msb + 1 - range.width ≤ msb
      omega
    · exact ih hmem

end Layout

/-! ## Segments in their places -/

namespace PlacedSegment

/-- The instruction bits of a segment, the most significant one first. -/
def bits (placed : PlacedSegment) : List Nat :=
  descending placed.lsb placed.segment.bitLen

/-- A segment has at least one bit and lies between its ends. -/
def IsInPlace (placed : PlacedSegment) : Prop :=
  0 < placed.segment.bitLen ∧ placed.msb + 1 = placed.lsb + placed.segment.bitLen

theorem IsInPlace.lsb_le_msb {placed : PlacedSegment} (h : placed.IsInPlace) :
    placed.lsb ≤ placed.msb := by
  obtain ⟨hpos, hends⟩ := h
  omega

/-- A subfield with the ends of a segment is as wide as the segment. -/
theorem IsInPlace.width_eq {placed : PlacedSegment} (h : placed.IsInPlace) (lsbInField : Nat) :
    Subfield.width ⟨placed.msb, placed.lsb, lsbInField⟩ = placed.segment.bitLen := by
  obtain ⟨hpos, hends⟩ := h
  show placed.msb - placed.lsb + 1 = placed.segment.bitLen
  omega

theorem IsInPlace.bits_eq {placed : PlacedSegment} (h : placed.IsInPlace) (lsbInField : Nat) :
    Subfield.bits ⟨placed.msb, placed.lsb, lsbInField⟩ = placed.bits := by
  rw [Subfield.bits, h.width_eq]
  rfl

end PlacedSegment

namespace Layout

@[simp] theorem totalBits_nil : totalBits [] = 0 := rfl

@[simp] theorem totalBits_cons (first : PlacedSegment) (rest : List PlacedSegment) :
    totalBits (first :: rest) = first.segment.bitLen + totalBits rest := rfl

theorem length_flatMap_bits (placed : List PlacedSegment) :
    (placed.flatMap PlacedSegment.bits).length = totalBits placed := by
  induction placed with
  | nil => rfl
  | cons first rest ih => simp [ih, PlacedSegment.bits]

theorem wholeSubfields_bits {placed : List PlacedSegment} (hplaced : ∀ p ∈ placed, p.IsInPlace) :
    (wholeSubfields placed).flatMap Subfield.bits = placed.flatMap PlacedSegment.bits := by
  induction placed with
  | nil => rfl
  | cons first rest ih =>
    obtain ⟨hfirst, hrest⟩ := List.forall_mem_cons.1 hplaced
    rw [wholeSubfields, List.flatMap_cons, List.flatMap_cons, ih hrest, hfirst.bits_eq]

/-- Legal ranges divide all instruction bits of a segment. -/
theorem subfieldsBelow_bits_of_isInPlace {placed : PlacedSegment} (hplace : placed.IsInPlace)
    (hlegal : placed.segment.HasLegalRanges) :
    (subfieldsBelow placed.msb placed.segment.ranges).flatMap Subfield.bits = placed.bits := by
  obtain ⟨-, hends⟩ := hplace
  obtain ⟨-, hwidth⟩ := hlegal
  rw [subfieldsBelow_bits (by omega), hwidth, hends, Nat.add_sub_cancel]
  rfl

/-- Without ranges the bits of the value are numbered from the last segment up. -/
theorem wholeSubfields_bitsInField {placed : List PlacedSegment}
    (hplaced : ∀ p ∈ placed, p.IsInPlace) :
    (wholeSubfields placed).flatMap Subfield.bitsInField = descending 0 (totalBits placed) := by
  induction placed with
  | nil => rfl
  | cons first rest ih =>
    obtain ⟨hfirst, hrest⟩ := List.forall_mem_cons.1 hplaced
    rw [wholeSubfields, List.flatMap_cons, ih hrest, totalBits_cons, descending_add, Nat.zero_add,
      Subfield.bitsInField, hfirst.width_eq]

theorem lsb_le_msb_of_mem_wholeSubfields {placed : List PlacedSegment}
    (hplaced : ∀ p ∈ placed, p.IsInPlace) {subfield : Subfield}
    (hmem : subfield ∈ wholeSubfields placed) : subfield.lsb ≤ subfield.msb := by
  induction placed with
  | nil => cases hmem
  | cons first rest ih =>
    obtain ⟨hfirst, hrest⟩ := List.forall_mem_cons.1 hplaced
    rw [wholeSubfields, List.mem_cons] at hmem
    rcases hmem with rfl | hmem
    · exact hfirst.lsb_le_msb
    · exact ih hrest hmem

/-- Without ranges there is one subfield for each segment, with the same bits. -/
theorem exists_bits_eq_of_mem_wholeSubfields {placed : List PlacedSegment}
    (hplaced : ∀ p ∈ placed, p.IsInPlace) {subfield : Subfield}
    (hmem : subfield ∈ wholeSubfields placed) : ∃ p ∈ placed, subfield.bits = p.bits := by
  induction placed with
  | nil => cases hmem
  | cons first rest ih =>
    obtain ⟨hfirst, hrest⟩ := List.forall_mem_cons.1 hplaced
    rw [wholeSubfields, List.mem_cons] at hmem
    rcases hmem with rfl | hmem
    · exact ⟨first, List.mem_cons_self, hfirst.bits_eq _⟩
    · obtain ⟨p, hp, hbits⟩ := ih hrest hmem
      exact ⟨p, List.mem_cons_of_mem _ hp, hbits⟩

/-! ## Subfields -/

/-- The bits of the value that segments stand for, in order: those that their ranges name, or if
    there are no ranges as many as there are instruction bits, down to the lowest one. -/
def bitsInFieldOf (placed : List PlacedSegment) : List Nat :=
  if placed.all (·.segment.ranges.isEmpty) then descending 0 (totalBits placed)
  else placed.flatMap fun p => p.segment.namedBits

/-- What the subfields of a field are: they divide the bits of its segments, in order. -/
structure Divide (placed : List PlacedSegment) (subfields : List Subfield) : Prop where
  bits : subfields.flatMap Subfield.bits = placed.flatMap PlacedSegment.bits
  bitsInField : subfields.flatMap Subfield.bitsInField = bitsInFieldOf placed
  nodup : (subfields.flatMap Subfield.bitsInField).Nodup
  lt : ∀ bit ∈ subfields.flatMap Subfield.bitsInField, bit < 64
  ends : ∀ subfield ∈ subfields, subfield.lsb ≤ subfield.msb

/-- The segments of a field are accepted if none of them has ranges, or if all of them have legal
    ones and no bit of the value is named twice. -/
theorem subfields_eq_ok {field : String} {placed : List PlacedSegment} {result : List Subfield} :
    subfields field placed = .ok result ↔
      (∀ p ∈ placed, p.segment.ranges = []) ∧ result = wholeSubfields placed ∨
        (∀ p ∈ placed, p.segment.ranges ≠ []) ∧ (∀ p ∈ placed, p.segment.HasLegalRanges) ∧
          (placed.flatMap fun p => p.segment.namedBits).Nodup ∧
          result = placed.flatMap fun p => subfieldsBelow p.msb p.segment.ranges := by
  unfold subfields
  by_cases hranged : placed.all (!·.segment.ranges.isEmpty)
  · rw [if_pos hranged, rangedSubfields_eq_ok]
    have hsome : ∀ p ∈ placed, p.segment.ranges ≠ [] := by simpa using hranged
    constructor
    · intro h
      obtain ⟨hlegal, hnodup, -, hresult⟩ := h
      exact .inr ⟨hsome, hlegal, hnodup, hresult⟩
    · intro h
      rcases h with ⟨hnone, rfl⟩ | ⟨-, hlegal, hnodup, hresult⟩
      · -- Ranges on all segments and on none: there is no segment.
        have hnil : placed = [] :=
          List.eq_nil_iff_forall_not_mem.2 fun p hp => hsome p hp (hnone p hp)
        subst hnil
        exact ⟨by simp, List.nodup_nil, by simp, rfl⟩
      · exact ⟨hlegal, hnodup, fun bit _ => BitVec.getLsbD_zero, hresult⟩
  · rw [if_neg hranged]
    have hsome : ¬∀ p ∈ placed, p.segment.ranges ≠ [] := by simpa using hranged
    by_cases hwhole : placed.all (·.segment.ranges.isEmpty)
    · rw [if_pos hwhole]
      have hnone : ∀ p ∈ placed, p.segment.ranges = [] := by simpa using hwhole
      constructor
      · intro h
        exact .inl ⟨hnone, (Except.ok.inj h).symm⟩
      · intro h
        rcases h with ⟨-, rfl⟩ | ⟨hsome', -⟩
        · rfl
        · exact absurd hsome' hsome
    · -- Some segments have ranges and some have none: this is refused.
      rw [if_neg hwhole]
      have hnone : ¬∀ p ∈ placed, p.segment.ranges = [] := by simpa using hwhole
      constructor
      · intro h
        cases h
      · intro h
        rcases h with ⟨hnone', -⟩ | ⟨hsome', -⟩
        · exact absurd hnone' hnone
        · exact absurd hsome' hsome

theorem divide_of_subfields_eq_ok {field : String} {placed : List PlacedSegment}
    {result : List Subfield} (hne : placed ≠ []) (hplaced : ∀ p ∈ placed, p.IsInPlace)
    (htotal : totalBits placed ≤ 64) (hresult : subfields field placed = .ok result) :
    Divide placed result := by
  rcases subfields_eq_ok.1 hresult with ⟨hnone, rfl⟩ | ⟨hsome, hlegal, hnodup, rfl⟩
  · have hbits := wholeSubfields_bitsInField hplaced
    refine ⟨wholeSubfields_bits hplaced, ?_, ?_, ?_, ?_⟩
    · rw [hbits, bitsInFieldOf, if_pos (by simpa using hnone)]
    · rw [hbits]
      exact nodup_descending _ _
    · intro bit hbit
      rw [hbits, mem_descending] at hbit
      omega
    · exact fun subfield => lsb_le_msb_of_mem_wholeSubfields hplaced
  · -- The ranges of a segment are as wide as its pattern, so they end at its lowest bit.
    have hroom : ∀ p ∈ placed, BitRange.totalWidth p.segment.ranges ≤ p.msb + 1 := by
      intro p hp
      obtain ⟨-, hends⟩ := hplaced p hp
      rw [(hlegal p hp).2, hends]
      omega
    have hbits : (placed.flatMap fun p => subfieldsBelow p.msb p.segment.ranges).flatMap
        Subfield.bitsInField = placed.flatMap fun p => p.segment.namedBits := by
      rw [List.flatMap_assoc]
      exact List.flatMap_congr fun p hp => subfieldsBelow_bitsInField (hroom p hp)
    refine ⟨?_, ?_, hbits ▸ hnodup, ?_, ?_⟩
    · rw [List.flatMap_assoc]
      exact List.flatMap_congr fun p hp =>
        subfieldsBelow_bits_of_isInPlace (hplaced p hp) (hlegal p hp)
    · rw [hbits, bitsInFieldOf, if_neg]
      -- Some segment exists, and it has ranges.
      intro hnone
      obtain ⟨p, hp⟩ := List.exists_mem_of_ne_nil placed hne
      have hempty := List.all_eq_true.1 hnone p hp
      exact hsome p hp (List.isEmpty_iff.1 hempty)
    · intro bit hbit
      rw [hbits] at hbit
      obtain ⟨p, hp, hbit⟩ := List.mem_flatMap.1 hbit
      exact (hlegal p hp).lt_of_mem hbit
    · intro subfield hmem
      obtain ⟨p, -, hmem⟩ := List.mem_flatMap.1 hmem
      exact lsb_le_msb_of_mem_subfieldsBelow hmem

/-- A subfield does not reach beyond the segment that it was made from. -/
theorem exists_subset_bits_of_subfields_eq_ok {field : String} {placed : List PlacedSegment}
    {result : List Subfield} (hplaced : ∀ p ∈ placed, p.IsInPlace)
    (hresult : subfields field placed = .ok result) :
    ∀ subfield ∈ result, ∃ p ∈ placed, subfield.bits ⊆ p.bits := by
  intro subfield hmem
  rcases subfields_eq_ok.1 hresult with ⟨-, rfl⟩ | ⟨-, hlegal, -, rfl⟩
  · obtain ⟨p, hp, hbits⟩ := exists_bits_eq_of_mem_wholeSubfields hplaced hmem
    exact ⟨p, hp, fun bit hbit => hbits ▸ hbit⟩
  · obtain ⟨p, hp, hmem⟩ := List.mem_flatMap.1 hmem
    refine ⟨p, hp, fun bit hbit => ?_⟩
    rw [← subfieldsBelow_bits_of_isInPlace (hplaced p hp) (hlegal p hp)]
    exact List.mem_flatMap.2 ⟨subfield, hmem, hbit⟩

end Layout

end IsaCodec
