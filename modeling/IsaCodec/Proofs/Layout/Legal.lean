import IsaCodec.Proofs.Format.Parsing
import IsaCodec.Proofs.Layout.Compiled

/-! # Legal formats

    Which formats have a layout.  The checks of the compiler stand where its
    steps need them; the rules of a format are stated here all together and
    without the steps.

    * **`Format.IsLegal`** — the rules.
    * **`exists_subfields_eq_ok`** — the rules for the segments of one field.
    * **`exists_ofFormat_eq_ok`** — a format that was read has a layout
      exactly if it is legal. -/

namespace IsaCodec

/-! ## Rules -/

/-- A bit of a field's value belongs to a range. -/
def BitRange.Covers (range : BitRange) (bit : Nat) : Prop :=
  range.lsb ≤ bit ∧ bit ≤ range.msb

/-- The rules that a format has to keep, together with the extras of its fields. -/
structure Format.IsLegal (format : Format) (extras : Dictionary Value) : Prop where
  /-- All elements have the same length. -/
  elements : ∀ a ∈ format.elements, ∀ b ∈ format.elements, a.bitLen = b.bitLen
  width : format.bitLen ≤ 64
  /-- A field has ranges on all of its segments or on none. -/
  uniform : ∀ field,
    (∀ segment ∈ format.segments, segment.name = some field → segment.ranges ≠ []) ∨
      ∀ segment ∈ format.segments, segment.name = some field → segment.ranges = []
  /-- Ranges are in order and inside a 64-bit value. -/
  ordered : ∀ segment ∈ format.segments, ∀ range ∈ segment.ranges,
    range.lsb ≤ range.msb ∧ range.msb ≤ 63
  /-- The ranges of a segment, if it has some, are together as wide as its pattern. -/
  covered : ∀ segment ∈ format.segments, segment.ranges ≠ [] →
    BitRange.totalWidth segment.ranges = segment.pattern.length
  /-- No bit of a value belongs to two ranges of its field. -/
  once : ∀ field, (format.rangesOf field).Pairwise fun a b => ∀ bit, ¬(a.Covers bit ∧ b.Covers bit)
  /-- Extras belong to fields of the format. -/
  extras : ∀ name ∈ extras.names, ∃ segment ∈ format.segments, segment.name = some name

/-! ## Ranges -/

theorem BitRange.isValid_iff {range : BitRange} :
    range.isValid = true ↔ range.lsb ≤ range.msb ∧ range.msb ≤ 63 := by
  rw [isValid, Bool.and_eq_true, decide_eq_true_iff, decide_eq_true_iff]
  omega

theorem BitRange.covers_iff {range : BitRange} (hvalid : range.isValid) {bit : Nat} :
    range.Covers bit ↔ bit ∈ range.bits := by
  have hends := isValid_iff.1 hvalid
  rw [Covers, bits, mem_descending, width]
  omega

/-- A bit is listed once exactly if no two ranges have it in common: one range does not list a
    bit twice. -/
theorem nodup_flatMap_bits {ranges : List BitRange} (hvalid : ∀ range ∈ ranges, range.isValid) :
    (ranges.flatMap BitRange.bits).Nodup ↔
      ranges.Pairwise fun a b => ∀ bit, ¬(a.Covers bit ∧ b.Covers bit) := by
  have hnodup : ∀ range ∈ ranges, range.bits.Nodup := fun range _ => nodup_descending _ _
  rw [List.nodup_flatMap, and_iff_right hnodup]
  refine List.Pairwise.iff_of_mem fun {a b} ha hb => ?_
  show List.Disjoint a.bits b.bits ↔ _
  simp only [List.disjoint_left, BitRange.covers_iff (hvalid a ha),
    BitRange.covers_iff (hvalid b hb), not_and]

/-- The ranges of a field are those of its segments. -/
theorem Format.forall_mem_rangesOf {format : Format} {field : String} {P : BitRange → Prop} :
    (∀ range ∈ format.rangesOf field, P range) ↔
      ∀ segment ∈ format.segments, segment.name = some field →
        ∀ range ∈ segment.ranges, P range := by
  simp only [rangesOf, List.forall_mem_flatMap, List.mem_filter, beq_iff_eq, and_imp]

theorem Format.rangesOf_eq_nil {format : Format} {field : String} :
    format.rangesOf field = [] ↔
      ∀ segment ∈ format.segments, segment.name = some field → segment.ranges = [] := by
  simp only [rangesOf, List.flatMap_eq_nil_iff, List.mem_filter, beq_iff_eq, and_imp]

/-! ## Segments without a name -/

/-- Ranges stand after a name. -/
theorem Format.ranges_eq_nil_of_describes {text : String} {format : Format}
    (h : Describes text format) :
    ∀ segment ∈ format.segments, segment.name = none → segment.ranges = [] := by
  intro segment hsegment hname
  -- The segment was read by one of the two rules for segments.
  obtain ⟨-, -, lexemes, -, -, -, hformat⟩ := h
  obtain ⟨element, helement, hsegment⟩ := List.mem_flatMap.1 hsegment
  obtain ⟨_, -, hparts⟩ := hformat.exists_infix_of_mem helement
  obtain ⟨_, -, hrule⟩ := Separated.exists_infix_of_mem hparts hsegment
  cases hrule with
  | pattern bits => rfl
  | named bits name hranges => cases hname

namespace Layout

/-! ## Fields -/

/-- The segments of a field are accepted exactly if they have ranges all or none, and if their
    ranges are legal and name no bit twice. -/
theorem exists_subfields_eq_ok {field : String} {placed : List PlacedSegment} :
    (∃ found, subfields field placed = .ok found) ↔
      (∀ p ∈ placed, p.segment.ranges = []) ∨
        (∀ p ∈ placed, p.segment.ranges ≠ []) ∧ (∀ p ∈ placed, p.segment.HasLegalRanges) ∧
          (placed.flatMap fun p => p.segment.namedBits).Nodup := by
  simp only [subfields_eq_ok, exists_or, exists_and_left, exists_eq, and_true]

/-- The segments of a field, without their places. -/
theorem forall_mem_segmentsOf {format : Format} {name : String} {P : Segment → Prop} :
    (∀ p ∈ segmentsOf name (placed format), P p.segment) ↔
      ∀ segment ∈ format.segments, segment.name = some name → P segment := by
  have hmem : ∀ segment, segment ∈ (segmentsOf name (placed format)).map PlacedSegment.segment ↔
      segment ∈ format.segments ∧ segment.name = some name := by
    intro segment
    rw [map_segment_segmentsOf, List.mem_filter, beq_iff_eq]
  rw [← List.forall_mem_map (f := PlacedSegment.segment) (P := P)]
  simp only [hmem, and_imp]

/-! ## Formats -/

theorem exists_checkElements_eq_ok {elements : List Element} (hne : elements ≠ []) :
    (∃ form, checkElements elements = .ok form) ↔
      ∀ a ∈ elements, ∀ b ∈ elements, a.bitLen = b.bitLen := by
  simp only [checkElements_eq_ok]
  constructor
  · intro h
    obtain ⟨form, first, rest, rfl, hall, -⟩ := h
    have hfirst : ∀ element ∈ first :: rest, element.bitLen = first.bitLen :=
      List.forall_mem_cons.2 ⟨rfl, hall⟩
    intro a ha b hb
    rw [hfirst a ha, hfirst b hb]
  · intro h
    obtain ⟨first, rest, rfl⟩ := List.exists_cons_of_ne_nil hne
    exact ⟨_, first, rest, rfl,
      fun element helement => h element (List.mem_cons_of_mem _ helement) first List.mem_cons_self,
      rfl⟩

theorem checkExtras_eq_ok {extras : Dictionary Value} {fields : List Field} :
    checkExtras extras fields = .ok () ↔ ∀ name ∈ extras.names, name ∈ fields.map Field.name := by
  have hany : ∀ name, (!fields.any (·.name == name)) = true ↔ name ∉ fields.map Field.name := by
    intro name
    simp
  unfold checkExtras
  cases hfound : extras.names.find? (fun name => !fields.any (·.name == name)) with
  | some name =>
    have hname := List.find?_some hfound
    rw [hany] at hname
    constructor
    · intro h
      cases h
    · intro h
      exact absurd (h name (List.mem_of_find?_eq_some hfound)) hname
  | none =>
    refine iff_of_true rfl fun name hmem => ?_
    have := List.find?_eq_none.1 hfound name hmem
    rw [hany] at this
    exact not_not.1 this

/-- What the segments of one field have to keep. -/
theorem exists_subfields_placed_eq_ok {format : Format} {name : String} :
    (∃ found, subfields name (segmentsOf name (placed format)) = .ok found) ↔
      ((∀ segment ∈ format.segments, segment.name = some name → segment.ranges ≠ []) ∨
        ∀ segment ∈ format.segments, segment.name = some name → segment.ranges = []) ∧
      (∀ segment ∈ format.segments, segment.name = some name →
        ∀ range ∈ segment.ranges, range.isValid) ∧
      (∀ segment ∈ format.segments, segment.name = some name → segment.ranges ≠ [] →
        BitRange.totalWidth segment.ranges = segment.bitLen) ∧
      (format.rangesOf name).Pairwise fun a b => ∀ bit, ¬(a.Covers bit ∧ b.Covers bit) := by
  rw [exists_subfields_eq_ok, flatMap_namedBits_segmentsOf,
    forall_mem_segmentsOf (P := fun segment => segment.ranges = []),
    forall_mem_segmentsOf (P := fun segment => segment.ranges ≠ []),
    forall_mem_segmentsOf (P := Segment.HasLegalRanges)]
  constructor
  · intro h
    rcases h with hnone | ⟨hsome, hlegal, hnodup⟩
    · -- Without ranges there is nothing to check.
      have hnil : format.rangesOf name = [] := Format.rangesOf_eq_nil.2 hnone
      refine ⟨.inr hnone, Format.forall_mem_rangesOf.1 ?_, ?_, ?_⟩
      · rw [hnil]
        exact List.forall_mem_nil _
      · intro segment hsegment hname hne
        exact absurd (hnone segment hsegment hname) hne
      · rw [hnil]
        exact .nil
    · have hvalid := fun segment hsegment hname => (hlegal segment hsegment hname).1
      exact ⟨.inl hsome, hvalid,
        fun segment hsegment hname _ => (hlegal segment hsegment hname).2,
        (nodup_flatMap_bits (Format.forall_mem_rangesOf.2 hvalid)).1 hnodup⟩
  · intro h
    obtain ⟨huniform, hvalid, hcovered, honce⟩ := h
    rcases huniform with hsome | hnone
    · refine .inr ⟨hsome, fun segment hsegment hname => ?_, ?_⟩
      · exact ⟨hvalid segment hsegment hname,
          hcovered segment hsegment hname (hsome segment hsegment hname)⟩
      · exact (nodup_flatMap_bits (Format.forall_mem_rangesOf.2 hvalid)).2 honce
    · exact .inl hnone

/-! ## Fields of a format -/

/-- There are fields for all names if there is one for each. -/
theorem exists_forall₂_isMadeFor {format : Format} {extras : Dictionary Value}
    {names : List String} :
    (∃ fields, List.Forall₂ (IsMadeFor format extras) names fields) ↔
      ∀ name ∈ names, ∃ found, subfields name (segmentsOf name (placed format)) = .ok found := by
  induction names with
  | nil => exact iff_of_true ⟨[], .nil⟩ (List.forall_mem_nil _)
  | cons name names ih =>
    rw [List.forall_mem_cons, ← ih]
    constructor
    · intro h
      obtain ⟨_, hfields⟩ := h
      obtain ⟨_, fields, ⟨found, hfound, -⟩, hrest, -⟩ := List.forall₂_cons_left_iff.1 hfields
      exact ⟨⟨found, hfound⟩, fields, hrest⟩
    · intro h
      obtain ⟨⟨found, hfound⟩, fields, hrest⟩ := h
      exact ⟨_, .cons ⟨found, hfound, rfl⟩ hrest⟩

/-- A name without segments is no obstacle. -/
theorem forall_mem_fieldNames {format : Format} :
    (∀ name ∈ fieldNames (placed format),
        ∃ found, subfields name (segmentsOf name (placed format)) = .ok found) ↔
      ∀ name, ∃ found, subfields name (segmentsOf name (placed format)) = .ok found := by
  constructor
  · intro h name
    by_cases hname : name ∈ fieldNames (placed format)
    · exact h name hname
    · rw [mem_fieldNames] at hname
      refine exists_subfields_eq_ok.2 (.inl ?_)
      rw [forall_mem_segmentsOf (P := fun segment => segment.ranges = [])]
      intro segment hsegment heq
      exact absurd ⟨segment, hsegment, heq⟩ hname
  · intro h name _
    exact h name

theorem exists_forall₂_and_checkExtras {format : Format} {extras : Dictionary Value} :
    (∃ fields, List.Forall₂ (IsMadeFor format extras) (fieldNames (placed format)) fields ∧
        checkExtras extras fields = .ok ()) ↔
      (∀ name, ∃ found, subfields name (segmentsOf name (placed format)) = .ok found) ∧
        ∀ name ∈ extras.names, ∃ segment ∈ format.segments, segment.name = some name := by
  rw [← forall_mem_fieldNames, ← @exists_forall₂_isMadeFor format extras]
  simp only [checkExtras_eq_ok, ← mem_fieldNames]
  constructor
  · intro h
    obtain ⟨fields, hfields, hextras⟩ := h
    exact ⟨⟨fields, hfields⟩, map_name_of_forall₂_isMadeFor hfields ▸ hextras⟩
  · intro h
    obtain ⟨⟨fields, hfields⟩, hextras⟩ := h
    exact ⟨fields, hfields, (map_name_of_forall₂_isMadeFor hfields).symm ▸ hextras⟩

/-- **A format has a layout exactly if it is legal.** -/
theorem exists_ofFormat_eq_ok {text : String} {format : Format} {extras : Dictionary Value}
    (hread : Format.parse text = .ok format) :
    (∃ layout, ofFormat format extras = .ok layout) ↔ format.IsLegal extras := by
  have hproper := Format.isProper_of_parse hread
  have hunnamed := Format.ranges_eq_nil_of_describes (Format.parse_eq_ok.1 hread)
  -- Each of the compiler's checks can be passed on its own.
  have hsteps : (∃ layout, ofFormat format extras = .ok layout) ↔
      (∃ form, checkElements format.elements = .ok form) ∧ format.bitLen ≤ 64 ∧
        ∃ fields, List.Forall₂ (IsMadeFor format extras) (fieldNames (placed format)) fields ∧
          checkExtras extras fields = .ok () := by
    simp only [ofFormat_eq_ok]
    constructor
    · intro h
      obtain ⟨layout, form, fields, hform, hwidth, hfields, hextras, -⟩ := h
      exact ⟨⟨form, hform⟩, hwidth, fields, hfields, hextras⟩
    · intro h
      obtain ⟨⟨form, hform⟩, hwidth, fields, hfields, hextras⟩ := h
      exact ⟨_, form, fields, hform, hwidth, hfields, hextras, rfl⟩
  rw [hsteps, exists_checkElements_eq_ok hproper.elements, exists_forall₂_and_checkExtras]
  simp only [exists_subfields_placed_eq_ok, BitRange.isValid_iff]
  constructor
  · -- The checks look at the segments of a field, and a segment without a name has no ranges.
    intro h
    obtain ⟨helements, hwidth, hfields, hextras⟩ := h
    refine ⟨helements, hwidth, fun field => (hfields field).1, ?_, ?_,
      fun field => (hfields field).2.2.2, hextras⟩
    · intro segment hsegment
      cases hname : segment.name with
      | none => simp [hunnamed segment hsegment hname]
      | some field => exact (hfields field).2.1 segment hsegment hname
    · intro segment hsegment hne
      cases hname : segment.name with
      | none => exact absurd (hunnamed segment hsegment hname) hne
      | some field => exact (hfields field).2.2.1 segment hsegment hname hne
  · intro h
    refine ⟨h.elements, h.width, fun field => ⟨h.uniform field, ?_, ?_, h.once field⟩, h.extras⟩
    · exact fun segment hsegment _ => h.ordered segment hsegment
    · exact fun segment hsegment _ => h.covered segment hsegment

end Layout

end IsaCodec
