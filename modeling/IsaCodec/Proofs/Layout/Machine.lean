import IsaCodec.Proofs.Layout.Arithmetic

/-! # Layouts in machine arithmetic

    Why no operation of the compilation traps, and why its outcome is that of
    natural numbers.  The proof goes along the steps of the compilation; each
    step relies on what the steps before it have found out:

    * the length of a text bounds the numbers that are added before anything
      is checked (`IsSmallFormat`);
    * after the check of the width all bit numbers are below 64;
    * ranges are only measured and shifted after they have been found valid,
      and only laid out after their widths have been compared with the
      pattern, so that the bit number goes below 0 after the last range only
      (`subfieldsBelow_eq`).

    Fixed bits are set one by one here and pushed from below there; both give
    the same (`place_eq`).

    * **`ofFormat_eq`**, **`compile_eq`** — layouts and instructions. -/

namespace IsaCodec

/-- Fixed bits as they are before `n` more bits of the pattern are read. -/
def FixedBits.shift (fixed : FixedBits) (n : Nat) : FixedBits :=
  ⟨fixed.mask <<< n, fixed.bits <<< n⟩

@[simp] theorem FixedBits.shift_zero (fixed : FixedBits) : fixed.shift 0 = fixed := by
  simp [shift]

@[simp] theorem FixedBits.none_shift (n : Nat) : none.shift n = none := by
  simp [shift, none]

namespace Machine

/-! ## Elements -/

theorem compareElements_eq {len : Nat} {elements : List Element}
    (h : ∀ element ∈ elements, element.bitLen < 2 ^ 32) :
    compareElements len elements =
      match elements.find? (·.bitLen ≠ len) with
      | some other => .error (.fault (.inconsistentElements len other.bitLen))
      | none => .ok () := by
  induction elements with
  | nil => rfl
  | cons element elements ih =>
    obtain ⟨helement, helements⟩ := List.forall_mem_cons.1 h
    rw [compareElements, elementLen_of_lt helement]
    by_cases hlen : element.bitLen = len
    · rw [List.find?_cons_of_neg (by simpa using hlen), ← ih helements]
      exact if_neg (not_not.2 hlen)
    · rw [List.find?_cons_of_pos (by simpa using hlen)]
      exact if_pos hlen

theorem checkElements_eq {elements : List Element} (hne : elements ≠ [])
    (hlength : elements.length < 2 ^ 32) (h : ∀ element ∈ elements, element.bitLen < 2 ^ 32) :
    checkElements elements = untrapped id (Layout.checkElements elements) := by
  obtain ⟨first, rest, rfl⟩ := List.exists_cons_of_ne_nil hne
  obtain ⟨hfirst, hrest⟩ := List.forall_mem_cons.1 h
  rw [checkElements, elementLen_of_lt hfirst, Layout.checkElements,
    truncate_of_lt (by simpa using hlength)]
  show compareElements first.bitLen rest >>= _ = _
  rw [compareElements_eq hrest]
  cases rest.find? (·.bitLen ≠ first.bitLen) with
  | none => rfl
  | some other => rfl

/-! ## Places and fixed bits -/

/-- Fixing a bit in its place is the same as pushing it and moving it there. -/
theorem fixBit_shift (fixed : FixedBits) (n : Nat) (bit : PatternBit) :
    fixBit (fixed.shift (n + 1)) ((1 : Code) <<< n) bit = (fixed.push bit).shift n := by
  have hmove : ∀ word : Code, word <<< (n + 1) = word <<< 1 <<< n := by
    intro word
    rw [Nat.add_comm, BitVec.shiftLeft_add]
  cases bit with
  | zero => simp only [fixBit, FixedBits.push, FixedBits.shift, hmove, BitVec.shiftLeft_or_distrib]
  | one => simp only [fixBit, FixedBits.push, FixedBits.shift, hmove, BitVec.shiftLeft_or_distrib]
  | any => simp only [fixBit, FixedBits.push, FixedBits.shift, hmove]

/-- With `n` bits to go, the next one is bit `n - 1`. -/
theorem fixBits_eq {fixed : FixedBits} {msb i n : Nat} {bits : List PatternBit} (hmsb : msb < 64)
    (hplace : msb + 1 = i + n) (hroom : bits.length ≤ n) :
    fixBits msb i (fixed.shift n) bits =
      .ok ((bits.foldl FixedBits.push fixed).shift (n - bits.length)) := by
  -- The bits read so far and the bits to go are always as many as there are below `msb`.
  induction bits generalizing fixed i n with
  | nil => rfl
  | cons bit bits ih =>
    rw [List.length_cons] at *
    obtain ⟨m, rfl⟩ : ∃ m, n = m + 1 := ⟨n - 1, by omega⟩
    have hdistance : msb - i = m := by omega
    rw [fixBits, truncate_of_lt (by omega), sub_of_le (by omega), hdistance]
    show shiftLeft 1 m >>= _ = _
    rw [shiftLeft_of_lt (by omega)]
    show fixBits msb (i + 1) (fixBit (fixed.shift (m + 1)) ((1 : Code) <<< m) bit) bits = _
    rw [fixBit_shift, ih (by omega) (by omega), List.foldl_cons, Nat.add_sub_add_right]

/-- Segments are placed, and the bits of their patterns are pushed. -/
theorem place_eq {fixed : FixedBits} {position : Nat} {segments : List Segment}
    (hposition : position ≤ 64) (hpos : ∀ segment ∈ segments, 0 < segment.bitLen)
    (hroom : (segments.flatMap Segment.pattern).length ≤ position) :
    place position (fixed.shift position) segments =
      .ok (Layout.place position segments,
        ((segments.flatMap Segment.pattern).foldl FixedBits.push fixed).shift
          (position - (segments.flatMap Segment.pattern).length)) := by
  -- Each segment leaves fewer bits to go, and the fixed bits have to be moved up by fewer places.
  induction segments generalizing fixed position with
  | nil => rfl
  | cons segment segments ih =>
    obtain ⟨hsegment, hsegments⟩ := List.forall_mem_cons.1 hpos
    rw [List.flatMap_cons, List.length_append] at *
    change segment.bitLen + _ ≤ _ at hroom
    rw [place, sub_of_le (by omega), segmentLen_of_lt (by omega), sub_of_le (by omega)]
    show fixBits (position - 1) 0 (fixed.shift position) segment.pattern >>= _ = _
    rw [fixBits_eq (by omega) (by omega) (Nat.le_trans (Nat.le_add_right _ _) hroom)]
    show place (position - segment.bitLen)
      ((segment.pattern.foldl FixedBits.push fixed).shift (position - segment.bitLen)) segments >>=
        _ = _
    rw [ih (by omega) hsegments (by omega), List.foldl_append, Nat.sub_sub]
    rfl

/-! ## Ranges -/

/-- Subfields as they are stored, their indices from `index` on. -/
def store (index : Nat) (subfields : List Subfield) : List StoredSubfield :=
  (subfields.zipIdx index).map fun (subfield, i) => ⟨subfield, i, subfield.mask⟩

@[simp] theorem store_nil (index : Nat) : store index [] = [] := rfl

@[simp] theorem store_cons (index : Nat) (subfield : Subfield) (subfields : List Subfield) :
    store index (subfield :: subfields) =
      ⟨subfield, index, subfield.mask⟩ :: store (index + 1) subfields := rfl

@[simp] theorem length_store (index : Nat) (subfields : List Subfield) :
    (store index subfields).length = subfields.length := by
  simp [store]

theorem store_append (index : Nat) (subfields others : List Subfield) :
    store index (subfields ++ others) =
      store index subfields ++ store (index + subfields.length) others := by
  rw [store, List.zipIdx_append, List.map_append]
  rfl

theorem totalWidth_pos {ranges : List BitRange} (hne : ranges ≠ []) :
    0 < BitRange.totalWidth ranges := by
  obtain ⟨range, ranges, rfl⟩ := List.exists_cons_of_ne_nil hne
  rw [BitRange.totalWidth_cons]
  exact Nat.lt_of_lt_of_le (Nat.succ_pos _) (Nat.le_add_right _ _)

theorem totalWidth_eq_sum (ranges : List BitRange) :
    BitRange.totalWidth ranges = (ranges.map BitRange.width).sum := by
  induction ranges with
  | nil => rfl
  | cons range ranges ih => simp [ih]

/-- Each range is at most 64 bits wide, so the widths can be added if there are not too many. -/
theorem totalWidth_le {ranges : List BitRange} (hvalid : ∀ range ∈ ranges, range.isValid) :
    BitRange.totalWidth ranges ≤ ranges.length * 64 := by
  have hle := List.sum_le_card_nsmul (ranges.map BitRange.width) 64 (by
    intro width hwidth
    obtain ⟨range, hrange, rfl⟩ := List.mem_map.1 hwidth
    have := BitRange.isValid_iff.1 (hvalid range hrange)
    rw [BitRange.width]
    omega)
  rwa [← totalWidth_eq_sum, List.length_map] at hle

/-- The subfields of a segment's ranges are found and stored.  Below the last range the bit number
    may wrap around, but it is not looked at any more. -/
theorem subfieldsBelow_eq {field : String} {msb index : Nat} {used : Code} {ranges : List BitRange}
    (hvalid : ∀ range ∈ ranges, range.isValid)
    (hroom : ranges = [] ∨ msb < 64 ∧ BitRange.totalWidth ranges ≤ msb + 1) :
    subfieldsBelow field msb index used ranges =
      untrapped (store index (Layout.subfieldsBelow msb ranges), ·)
        (Layout.reserve field used ranges) := by
  induction ranges generalizing msb index used with
  | nil => rfl
  | cons range ranges ih =>
    obtain ⟨hrange, hranges⟩ := List.forall_mem_cons.1 hvalid
    obtain ⟨hmsb, hroom⟩ := hroom.resolve_left (List.cons_ne_nil _ _)
    rw [BitRange.totalWidth_cons] at hroom
    obtain ⟨-, hlt⟩ := BitRange.isValid_iff.1 hrange
    have hlsb : range.lsb < 64 := by
      have := BitRange.isValid_iff.1 hrange
      omega
    have hpos : 0 < range.width := Nat.succ_pos _
    have hbits : maskAt range.width range.lsb = .ok (ε := Halt LayoutFault) range.mask :=
      maskAt_of_lt hlsb
    rw [subfieldsBelow, rangeLen_of_isValid hrange, ok_bind, hbits, ok_bind]
    cases hcommon : Layout.lowestCommonBit? used range.mask with
    | some bit =>
      rw [Layout.reserve_cons_of_common hcommon]
      rfl
    | none =>
      have hrest : subfieldsBelow field (wrappingSub msb range.width) (index + 1)
          (used ||| range.mask) ranges =
            untrapped (store (index + 1) (Layout.subfieldsBelow (msb - range.width) ranges), ·)
              (Layout.reserve field (used ||| range.mask) ranges) := by
        -- If there is another range, then there is room for it, and the difference is exact.
        by_cases hnil : ranges = []
        · subst hnil
          rfl
        · have hwidth := totalWidth_pos hnil
          rw [wrappingSub_of_le (by omega) (by omega)]
          exact ih hranges (.inr ⟨by omega, by omega⟩)
      show add msb 1 >>= _ = _
      rw [add_of_lt (by omega)]
      show sub (msb + 1) range.width >>= _ = _
      rw [sub_of_le (by omega)]
      show maskAt range.width (msb + 1 - range.width) >>= _ = _
      rw [maskAt_of_lt (by omega)]
      show subfieldsBelow field (wrappingSub msb range.width) (index + 1) (used ||| range.mask)
        ranges >>= _ = _
      have hmask : Code.lowMask range.width <<< (msb + 1 - range.width) =
          Subfield.mask ⟨msb, msb + 1 - range.width, range.lsb⟩ := by
        have hwidth : msb - (msb + 1 - range.width) + 1 = range.width := by omega
        rw [Subfield.mask, Subfield.width, hwidth]
      rw [hrest, Layout.reserve_cons_of_free hcommon, Layout.subfieldsBelow, store_cons, ← hmask]
      cases Layout.reserve field (used ||| range.mask) ranges with
      | error fault => rfl
      | ok used => rfl

/-! ## Fields -/

/-- What the calculations with a placed segment rely on. -/
structure IsSmall (placed : PlacedSegment) : Prop where
  inPlace : placed.IsInPlace
  msb : placed.msb < 64
  ranges : placed.segment.ranges.length < 2 ^ 26

theorem IsSmall.segmentLen_eq {placed : PlacedSegment} (h : IsSmall placed) :
    segmentLen placed.segment = placed.segment.bitLen := by
  obtain ⟨-, hends⟩ := h.inPlace
  have hmsb := h.msb
  exact segmentLen_of_lt (by omega)

theorem mapM_rangeLen {ranges : List BitRange} (hvalid : ∀ range ∈ ranges, range.isValid) :
    ranges.mapM (rangeLen (ε := LayoutFault)) = .ok (ranges.map BitRange.width) := by
  rw [mapM_eq_ok, List.forall₂_map_right_iff, List.forall₂_same]
  exact fun range hrange => rangeLen_of_isValid (hvalid range hrange)

/-- The widths are added only after each range has been found valid. -/
theorem sum_width {ranges : List BitRange} (hvalid : ∀ range ∈ ranges, range.isValid)
    (hlength : ranges.length < 2 ^ 26) :
    (sum (ranges.map BitRange.width) : Except (Halt LayoutFault) Nat) =
      .ok (BitRange.totalWidth ranges) := by
  have hle := totalWidth_le hvalid
  rw [totalWidth_eq_sum] at *
  exact sum_of_lt (by omega)

theorem rangedSubfields_eq {field : String} {index : Nat} {used : Code}
    {placed : List PlacedSegment} (hsmall : ∀ p ∈ placed, IsSmall p) :
    rangedSubfields field index used placed =
      untrapped (store index) (Layout.rangedSubfields field used placed) := by
  induction placed generalizing index used with
  | nil => rfl
  | cons first rest ih =>
    obtain ⟨hfirst, hrest⟩ := List.forall_mem_cons.1 hsmall
    rw [rangedSubfields, Layout.rangedSubfields]
    cases hinvalid : first.segment.ranges.find? (!·.isValid) with
    | some range => rfl
    | none =>
      have hvalid : ∀ range ∈ first.segment.ranges, range.isValid := by simpa using hinvalid
      dsimp only
      rw [mapM_rangeLen hvalid]
      show sum (first.segment.ranges.map BitRange.width) >>= _ = _
      rw [sum_width hvalid hfirst.ranges, hfirst.segmentLen_eq]
      by_cases hbits : BitRange.totalWidth first.segment.ranges = first.segment.bitLen
      · -- The ranges are as wide as the segment, so they end where it ends.
        have hroom : first.segment.ranges = [] ∨ first.msb < 64 ∧
            BitRange.totalWidth first.segment.ranges ≤ first.msb + 1 := by
          obtain ⟨-, hends⟩ := hfirst.inPlace
          exact .inr ⟨hfirst.msb, by omega⟩
        rw [if_neg (not_not.2 hbits)]
        refine (if_neg (not_not.2 hbits)).trans ?_
        rw [subfieldsBelow_eq hvalid hroom]
        cases Layout.reserve field used first.segment.ranges with
        | error fault => rfl
        | ok used =>
          show rangedSubfields field (index + (store index _).length) used rest >>= _ = _
          rw [ih hrest, length_store]
          cases hothers : Layout.rangedSubfields field used rest with
          | error fault =>
            show _ = untrapped _ (Layout.rangedSubfields field used rest >>= _)
            rw [hothers]
            rfl
          | ok others =>
            show _ = untrapped _ (Layout.rangedSubfields field used rest >>= _)
            rw [hothers]
            show _ = Except.ok (store index (_ ++ others))
            rw [store_append]
            rfl
      · rw [if_pos hbits]
        exact if_pos hbits

/-- Going down from the number of all bits, each segment leaves those of the segments after it. -/
theorem subfieldsUnder_eq {index : Nat} {placed : List PlacedSegment}
    (hsmall : ∀ p ∈ placed, IsSmall p) :
    subfieldsUnder (Layout.totalBits placed) index placed =
      .ok (store index (Layout.wholeSubfields placed)) := by
  induction placed generalizing index with
  | nil => rfl
  | cons first rest ih =>
    obtain ⟨hfirst, hrest⟩ := List.forall_mem_cons.1 hsmall
    obtain ⟨hpos, hends⟩ := hfirst.inPlace
    have hmsb := hfirst.msb
    have hmask : Code.lowMask first.segment.bitLen <<< first.lsb =
        Subfield.mask ⟨first.msb, first.lsb, Layout.totalBits rest⟩ := by
      have hwidth : first.msb - first.lsb + 1 = first.segment.bitLen := by omega
      rw [Subfield.mask, Subfield.width, hwidth]
    rw [subfieldsUnder, Layout.totalBits_cons, hfirst.segmentLen_eq,
      sub_of_le (Nat.le_add_right _ _), Nat.add_sub_cancel_left]
    show maskAt first.segment.bitLen first.lsb >>= _ = _
    rw [maskAt_of_lt (by omega), hmask]
    show subfieldsUnder (Layout.totalBits rest) (index + 1) rest >>= _ = _
    rw [ih hrest]
    rfl

theorem totalBits_eq_sum (placed : List PlacedSegment) :
    Layout.totalBits placed = (placed.map (·.segment.bitLen)).sum := by
  induction placed with
  | nil => rfl
  | cons first rest ih => simp [ih]

theorem wholeSubfields_eq {placed : List PlacedSegment} (hsmall : ∀ p ∈ placed, IsSmall p)
    (htotal : Layout.totalBits placed ≤ 64) :
    wholeSubfields placed = .ok (store 0 (Layout.wholeSubfields placed)) := by
  have hlengths : placed.map (segmentLen ·.segment) = placed.map (·.segment.bitLen) :=
    List.map_congr_left fun p hp => (hsmall p hp).segmentLen_eq
  have hsum := totalBits_eq_sum placed
  unfold wholeSubfields
  rw [hlengths, sum_of_lt (by omega), ← hsum]
  exact subfieldsUnder_eq hsmall

theorem subfields_eq {field : String} {placed : List PlacedSegment}
    (hsmall : ∀ p ∈ placed, IsSmall p) (htotal : Layout.totalBits placed ≤ 64) :
    subfields field placed = untrapped (store 0) (Layout.subfields field placed) := by
  unfold subfields Layout.subfields
  by_cases hranged : placed.all (!·.segment.ranges.isEmpty)
  · rw [if_pos hranged, if_pos hranged]
    exact rangedSubfields_eq hsmall
  · rw [if_neg hranged, if_neg hranged]
    by_cases hwhole : placed.all (·.segment.ranges.isEmpty)
    · rw [if_pos hwhole, if_pos hwhole]
      exact wholeSubfields_eq hsmall htotal
    · rw [if_neg hwhole, if_neg hwhole]
      rfl

/-! ## Storage -/

/-- A field as it is stored. -/
def storeField (field : Field) : StoredField :=
  ⟨field.name, field.storageBits, store 0 field.subfields, field.extras⟩

/-- The ends of a subfield are in order, and its bits are inside 64 bits. -/
def IsInside (subfield : Subfield) : Prop :=
  subfield.lsb ≤ subfield.msb ∧ subfield.msb < 64 ∧ subfield.lsbInField < 64

theorem mapM_subfieldTop {index : Nat} {subfields : List Subfield}
    (h : ∀ subfield ∈ subfields, IsInside subfield) :
    (store index subfields).mapM subfieldTop =
      .ok (subfields.map fun s => s.lsbInField + s.width) := by
  induction subfields generalizing index with
  | nil => rfl
  | cons subfield subfields ih =>
    obtain ⟨⟨hle, hmsb, hlsb⟩, hrest⟩ := List.forall_mem_cons.1 h
    have htop : subfieldTop ⟨subfield, index, subfield.mask⟩ =
        .ok (subfield.lsbInField + subfield.width) := by
      unfold subfieldTop
      rw [subfieldLen_of_le hle hmsb]
      apply add_of_lt
      show subfield.lsbInField + subfield.width < 2 ^ 32
      rw [Subfield.width]
      omega
    rw [store_cons, List.mapM_cons, htop, ih hrest]
    rfl

/-- The subfields of a field are inside, since they divide its segments. -/
theorem isInside_of_subfields {field : String} {placed : List PlacedSegment} {found : List Subfield}
    (hne : placed ≠ []) (hsmall : ∀ p ∈ placed, IsSmall p) (htotal : Layout.totalBits placed ≤ 64)
    (hfound : Layout.subfields field placed = .ok found) :
    ∀ subfield ∈ found, IsInside subfield := by
  have hdivide := Layout.divide_of_subfields_eq_ok hne (fun p hp => (hsmall p hp).inPlace) htotal
    hfound
  intro subfield hmem
  have hle := hdivide.ends subfield hmem
  refine ⟨hle, ?_, ?_⟩
  · -- The highest bit belongs to one of the segments.
    have hbit : subfield.msb ∈ found.flatMap Subfield.bits := by
      refine List.mem_flatMap.2 ⟨subfield, hmem, ?_⟩
      rw [Subfield.bits, mem_descending, Subfield.width]
      omega
    rw [hdivide.bits] at hbit
    obtain ⟨p, hp, hbit⟩ := List.mem_flatMap.1 hbit
    rw [PlacedSegment.bits, mem_descending] at hbit
    obtain ⟨-, hends⟩ := (hsmall p hp).inPlace
    have hmsb := (hsmall p hp).msb
    omega
  · apply hdivide.lt
    refine List.mem_flatMap.2 ⟨subfield, hmem, ?_⟩
    rw [Subfield.bitsInField, mem_descending, Subfield.width]
    omega

theorem field_eq {name : String} {extras : Option Value} {placed : List PlacedSegment}
    (hne : placed ≠ []) (hsmall : ∀ p ∈ placed, IsSmall p) (htotal : Layout.totalBits placed ≤ 64) :
    field name extras placed =
      untrapped storeField
        (Layout.subfields name placed >>= fun found => pure ⟨name, found, extras⟩) := by
  unfold field
  rw [subfields_eq hsmall htotal]
  cases hfound : Layout.subfields name placed with
  | error fault => rfl
  | ok found =>
    -- The size of the value is calculated from subfields that were accepted.
    show (store 0 found).mapM subfieldTop >>= _ = _
    rw [mapM_subfieldTop (isInside_of_subfields hne hsmall htotal hfound)]
    rfl

/-! ## Layouts -/

theorem msb_le_of_mem_place {position : Nat} {segments : List Segment} :
    ∀ p ∈ Layout.place position segments, p.msb ≤ position - 1 := by
  induction segments generalizing position with
  | nil => exact fun p hp => nomatch hp
  | cons first rest ih =>
    intro p hp
    rw [Layout.place, List.mem_cons] at hp
    rcases hp with rfl | hp
    · exact Nat.le_refl _
    · have := ih p hp
      omega

/-- What the calculations with a format rely on. -/
structure IsSmallFormat (format : Format) : Prop where
  proper : format.IsProper
  fits : format.FitsIn (2 ^ 26 - 1)

theorem IsSmallFormat.isSmall {format : Format} (h : IsSmallFormat format)
    (hwidth : format.bitLen ≤ 64) : ∀ p ∈ Layout.placed format, IsSmall p := by
  intro p hp
  have hmsb := msb_le_of_mem_place p hp
  have hsegment : p.segment ∈ format.segments := by
    rw [← Layout.map_segment_place format.bitLen format.segments]
    exact List.mem_map_of_mem hp
  have hranges := h.fits.ranges p.segment hsegment
  exact ⟨Layout.isInPlace_of_mem_placed h.proper p hp, by omega, by omega⟩

/-- A layout as it is stored. -/
def storeLayout (layout : Layout) : StoredLayout :=
  ⟨layout.form, layout.fixed, layout.fields.map storeField⟩

theorem checkExtras_eq (extras : Dictionary Value) (fields : List Field) :
    checkExtras extras (fields.map storeField) =
      untrapped id (Layout.checkExtras extras fields) := by
  have hany : ∀ name, (fields.map storeField).any (·.name == name) =
      fields.any (·.name == name) := by
    intro name
    rw [List.any_map]
    rfl
  unfold checkExtras Layout.checkExtras
  simp only [hany]
  cases extras.names.find? fun name => !fields.any (·.name == name) with
  | none => rfl
  | some name => rfl

theorem storeField_msb (field : Field) : (storeField field).msb = field.msb := by
  have hmap : (store 0 field.subfields).map (·.msb) = field.subfields.map (·.msb) := by
    rw [store, List.map_map]
    conv_rhs => rw [← List.zipIdx_map_fst 0 field.subfields, List.map_map]
    rfl
  rw [StoredField.msb, Field.msb]
  exact congrArg (fun tops => tops.max?.getD 0) hmap

theorem sortBy_storeField (fields : List Field) :
    sortBy (fun a b => b.msb ≤ a.msb) (fields.map storeField) =
      (Layout.sortFields fields).map storeField := by
  apply sortBy_map
  intro a b
  rw [storeField_msb, storeField_msb]

/-- With at most 64 bits, placing starts without fixed bits and ends with those of the pattern. -/
theorem place_format {format : Format} (hproper : format.IsProper) (hwidth : format.bitLen ≤ 64) :
    place format.bitLen .none format.segments =
      .ok (Layout.placed format, .ofPattern format.pattern) := by
  have hpattern := format.pattern_eq_flatMap_segments
  have hplace := @place_eq .none format.bitLen format.segments hwidth
    (fun segment => hproper.segment_bitLen_pos) (Nat.le_of_eq (congrArg _ hpattern.symm))
  rw [FixedBits.none_shift, ← hpattern] at hplace
  rw [hplace]
  show Except.ok (_, FixedBits.shift _ (format.bitLen - format.bitLen)) = _
  rw [Nat.sub_self, FixedBits.shift_zero]
  rfl

/-- The fields of a format, in order of their names' first appearance. -/
def fieldsOf (format : Format) (extras : Dictionary Value) : Except LayoutFault (List Field) :=
  (Layout.fieldNames (Layout.placed format)).mapM fun name => do
    let found ← Layout.subfields name (Layout.segmentsOf name (Layout.placed format))
    pure ⟨name, found, extras.get? name⟩

theorem mapM_field {format : Format} (hsmall : IsSmallFormat format) (hwidth : format.bitLen ≤ 64)
    (extras : Dictionary Value) :
    ((Layout.fieldNames (Layout.placed format)).mapM fun name =>
        field name (extras.get? name) (Layout.segmentsOf name (Layout.placed format))) =
      untrapped (List.map storeField) (fieldsOf format extras) := by
  apply mapM_eq_untrapped
  intro name hname
  have htotal := Layout.totalBits_segmentsOf format name
  have hlength := format.length_bitsOf_le name
  exact field_eq (Layout.segmentsOf_ne_nil hname)
    (fun p hp => hsmall.isSmall hwidth p (List.mem_of_mem_filter hp)) (by omega)

/-- **Layouts in machine arithmetic**: nothing traps, and the outcome is that of natural numbers. -/
theorem ofFormat_eq {format : Format} (hsmall : IsSmallFormat format) (extras : Dictionary Value) :
    ofFormat format extras = untrapped storeLayout (Layout.ofFormat format extras) := by
  have hbits := hsmall.fits.bitLen
  have helements := hsmall.fits.elements
  unfold ofFormat Layout.ofFormat
  rw [checkElements_eq hsmall.proper.elements (by omega) fun element helement =>
    Nat.lt_of_le_of_lt (Format.bitLen_le_of_mem helement) (by omega)]
  cases Layout.checkElements format.elements with
  | error fault => rfl
  | ok form =>
    show formatLen format.elements >>= _ = _
    rw [formatLen_of_lt (by omega)]
    show (if format.bitLen > 64 then _ else _) =
      untrapped storeLayout (if format.bitLen > 64 then _ else _)
    by_cases hwidth : format.bitLen > 64
    · rw [if_pos hwidth, if_pos hwidth]
      rfl
    · -- From here on there are at most 64 bits.
      have hle := Nat.le_of_not_lt hwidth
      rw [if_neg hwidth, if_neg hwidth, place_format hsmall.proper hle]
      show List.mapM _ (Layout.fieldNames (Layout.placed format)) >>= _ =
        untrapped storeLayout (fieldsOf format extras >>= _)
      rw [mapM_field hsmall hle]
      cases fieldsOf format extras with
      | error fault => rfl
      | ok fields =>
        show checkExtras extras (fields.map storeField) >>= _ =
          untrapped storeLayout (Layout.checkExtras extras fields >>= _)
        rw [checkExtras_eq]
        cases Layout.checkExtras extras fields with
        | error fault => rfl
        | ok _ =>
          show Except.ok (StoredLayout.mk form _ (sortBy _ (fields.map storeField))) = _
          rw [sortBy_storeField]
          rfl

/-! ## Instructions -/

/-- An instruction as it is stored. -/
def storeInstruction (instruction : Instruction) : StoredInstruction where
  form := instruction.form
  fixed := instruction.fixed
  fields := instruction.fields.map storeField
  name := instruction.name
  format := instruction.format
  storageBits := instruction.storageBits
  extras := instruction.extras

/-- A format that was read from a text of less than `2 ^ 26` bytes is small. -/
theorem isSmallFormat_of_parse {text : String} {format : Format}
    (hread : Format.parse text = .ok format) (hsize : text.utf8ByteSize < 2 ^ 26) :
    IsSmallFormat format := by
  have hfits := Format.fitsIn_of_parse hread
  refine ⟨Format.isProper_of_parse hread, ?_, ?_, fun segment hsegment => ?_⟩
  · have := hfits.bitLen
    omega
  · have := hfits.elements
    omega
  · have := hfits.ranges segment hsegment
    omega

theorem compile_eq {description : InstructionDescription}
    (hsize : description.format.utf8ByteSize < 2 ^ 26) (hmatch : description.matchCondition = none)
    (hunmatch : description.unmatchCondition = none) :
    compile description = untrapped storeInstruction (Instruction.compile description) := by
  unfold compile Instruction.compile Layout.compile
  rw [hmatch, hunmatch]
  cases hread : Format.parse description.format with
  | error fault => rfl
  | ok format =>
    dsimp only
    rw [ofFormat_eq (isSmallFormat_of_parse hread hsize)]
    cases hlayout : Layout.ofFormat format description.fieldExtras with
    | error fault => rfl
    | ok layout =>
      -- The elements of a layout have no more bits than its format, which were compared with 64.
      have hlaysOut := Layout.laysOut_of_ofFormat_eq_ok (Format.isProper_of_parse hread) hlayout
      show mul layout.form.elementBitLen layout.form.elementCount >>= _ = _
      rw [mul_of_lt hlaysOut.isCounted, ← hlaysOut.isCounted.bitLen_eq]
      rfl

end Machine

end IsaCodec
