import IsaCodec.Proofs.Format.Shape
import IsaCodec.Proofs.Layout.FixedBits
import IsaCodec.Proofs.Layout.Owners
import IsaCodec.Proofs.Order

/-! # Compiled layouts

    What the layout of a format is, if it has one.  The steps of the
    compilation are taken apart once (`ofFormat_eq_ok`), and then the form
    and the fields are described by the reading of the format.

    * **Forms** — the form has as many bits as the pattern.
    * **Fields** — there is one field for each name in the format, and it has
      the bits that belong to the name (`Format.Declares`).
    * **Order** — no bit belongs to two fields, so the order by the most
      significant bit is strict. -/

namespace IsaCodec

/-! ## Names without repetition -/

theorem nodup_eraseDups {α : Type} [BEq α] [LawfulBEq α] : ∀ xs : List α, xs.eraseDups.Nodup
  | [] => List.nodup_nil
  | x :: xs => by
    rw [List.eraseDups_cons, List.nodup_cons]
    refine ⟨?_, nodup_eraseDups _⟩
    rw [List.mem_eraseDups]
    simp
termination_by xs => xs.length
decreasing_by
  have := List.length_filter_le (fun y => !y == x) xs
  simp only [List.length_cons]
  omega

/-- A field is what a format says about its name. -/
structure Format.Declares (format : Format) (field : Field) : Prop where
  bits : field.bits = format.bitsOf field.name
  bitsInField : field.bitsInField = format.bitsInField field.name
  nodup : field.bitsInField.Nodup
  lt : ∀ bit ∈ field.bitsInField, bit < 64
  subfields : field.subfields ≠ []
  ends : ∀ subfield ∈ field.subfields, subfield.lsb ≤ subfield.msb

namespace Layout

/-! ## Forms -/

theorem checkElements_eq_ok {elements : List Element} {form : Form} :
    checkElements elements = .ok form ↔
      ∃ first rest, elements = first :: rest ∧ (∀ element ∈ rest, element.bitLen = first.bitLen) ∧
        form = ⟨first.bitLen, rest.length + 1⟩ := by
  cases elements with
  | nil =>
    constructor
    · intro h
      cases h
    · intro h
      obtain ⟨first, rest, heq, -⟩ := h
      cases heq
  | cons first rest =>
    unfold checkElements
    dsimp only
    cases hother : rest.find? (·.bitLen ≠ first.bitLen) with
    | some other =>
      have hne := List.find?_some hother
      constructor
      · intro h
        cases h
      · intro h
        obtain ⟨_, _, heq, hall, -⟩ := h
        obtain ⟨rfl, rfl⟩ := List.cons.inj heq
        have := hall other (List.mem_of_find?_eq_some hother)
        simp [this] at hne
    | none =>
      have hall : ∀ element ∈ rest, element.bitLen = first.bitLen := by simpa using hother
      constructor
      · intro h
        exact ⟨first, rest, rfl, hall, (Except.ok.inj h).symm⟩
      · intro h
        obtain ⟨_, _, heq, -, rfl⟩ := h
        obtain ⟨rfl, rfl⟩ := List.cons.inj heq
        rfl

/-- Elements of equal length have together the length of the form. -/
theorem length_of_checkElements {format : Format} {form : Form}
    (h : checkElements format.elements = .ok form) :
    form.elementBitLen * form.elementCount = format.bitLen := by
  obtain ⟨first, rest, helements, hall, rfl⟩ := checkElements_eq_ok.1 h
  have hrest : (rest.map Element.bitLen).sum = rest.length * first.bitLen := by
    rw [List.map_congr_left hall, List.map_const', List.sum_replicate_nat]
  show first.bitLen * (rest.length + 1) = format.pattern.length
  rw [Format.pattern, helements, List.length_flatMap, List.map_cons, List.sum_cons]
  change _ = first.bitLen + (rest.map Element.bitLen).sum
  rw [hrest, Nat.mul_add, Nat.mul_one, Nat.add_comm, Nat.mul_comm]

/-! ## Steps of the compilation -/

/-- The segments of a format in their places. -/
def placed (format : Format) : List PlacedSegment :=
  place format.bitLen format.segments

/-- The order of the fields. -/
def sortFields (fields : List Field) : List Field :=
  sortBy (fun a b => b.msb ≤ a.msb) fields

/-- The field that is made for a name. -/
def IsMadeFor (format : Format) (extras : Dictionary Value) (name : String) (field : Field) :
    Prop :=
  ∃ found, subfields name (segmentsOf name (placed format)) = .ok found ∧
    ⟨name, found, extras.get? name⟩ = field

theorem ofFormat_eq_ok {format : Format} {extras : Dictionary Value} {layout : Layout} :
    ofFormat format extras = .ok layout ↔
      ∃ form fields, checkElements format.elements = .ok form ∧ format.bitLen ≤ 64 ∧
        List.Forall₂ (IsMadeFor format extras) (fieldNames (placed format)) fields ∧
        checkExtras extras fields = .ok () ∧
        ⟨form, .ofPattern format.pattern, sortFields fields⟩ = layout := by
  unfold ofFormat
  -- The width is decided first, as it is between the steps that give something.
  by_cases hwidth : format.bitLen ≤ 64
  · simp only [Nat.not_lt.2 hwidth, if_false, bind_eq_ok, pure_eq_ok, mapM_eq_ok]
    constructor
    · intro h
      obtain ⟨form, hform, fields, hfields, ⟨⟩, hextras, hlayout⟩ := h
      exact ⟨form, fields, hform, hwidth, hfields, hextras, hlayout⟩
    · intro h
      obtain ⟨form, fields, hform, -, hfields, hextras, hlayout⟩ := h
      exact ⟨form, hform, fields, hfields, (), hextras, hlayout⟩
  · simp only [Nat.lt_of_not_le hwidth, if_true, bind_eq_ok]
    constructor
    · intro h
      obtain ⟨_, _, _, hthrow, -⟩ := h
      cases hthrow
    · intro h
      obtain ⟨_, _, _, hwidth', -⟩ := h
      exact absurd hwidth' hwidth

/-! ## Fields -/

theorem placed_eq (format : Format) :
    placed format = place (Format.ownersIn format.segments).length format.segments := by
  rw [placed, ← format.length_owners]
  rfl

theorem isInPlace_of_mem_placed {format : Format} (hproper : format.IsProper) :
    ∀ p ∈ placed format, p.IsInPlace := by
  rw [placed_eq]
  exact isInPlace_of_mem_place fun segment => hproper.segment_bitLen_pos

theorem isInPlace_of_mem_segmentsOf {format : Format} (hproper : format.IsProper)
    (name : String) : ∀ p ∈ segmentsOf name (placed format), p.IsInPlace :=
  fun p hp => isInPlace_of_mem_placed hproper p (List.mem_of_mem_filter hp)

theorem segmentsOf_placed_bits (format : Format) (name : String) :
    (segmentsOf name (placed format)).flatMap PlacedSegment.bits = format.bitsOf name := by
  rw [placed_eq]
  exact flatMap_bits_place name format.segments

theorem map_segment_segmentsOf (format : Format) (name : String) :
    (segmentsOf name (placed format)).map PlacedSegment.segment =
      format.segments.filter (·.name == some name) := by
  conv_rhs => rw [← map_segment_place format.bitLen format.segments, List.filter_map]
  rfl

theorem totalBits_segmentsOf (format : Format) (name : String) :
    totalBits (segmentsOf name (placed format)) = (format.bitsOf name).length := by
  rw [← segmentsOf_placed_bits, length_flatMap_bits]

theorem flatMap_namedBits_segmentsOf (format : Format) (name : String) :
    ((segmentsOf name (placed format)).flatMap fun p => p.segment.namedBits) =
      (format.rangesOf name).flatMap BitRange.bits := by
  rw [Format.rangesOf, ← map_segment_segmentsOf, List.flatMap_map, List.flatMap_assoc]
  rfl

/-- The bits of the value that the segments of a field stand for are those that the format pairs
    with the bits of the field. -/
theorem bitsInFieldOf_segmentsOf (format : Format) (name : String) :
    bitsInFieldOf (segmentsOf name (placed format)) = format.bitsInField name := by
  have hranges : format.rangesOf name =
      (segmentsOf name (placed format)).flatMap fun p => p.segment.ranges := by
    rw [Format.rangesOf, ← map_segment_segmentsOf, List.flatMap_map]
  unfold bitsInFieldOf Format.bitsInField
  cases hnone : format.rangesOf name with
  | nil =>
    rw [hranges, List.flatMap_eq_nil_iff] at hnone
    rw [if_pos, totalBits_segmentsOf]
    simpa using hnone
  | cons range ranges =>
    rw [if_neg, flatMap_namedBits_segmentsOf, hnone]
    intro hall
    have : format.rangesOf name = [] := by
      rw [hranges, List.flatMap_eq_nil_iff]
      simpa using hall
    rw [this] at hnone
    cases hnone

theorem mem_fieldNames {format : Format} {name : String} :
    name ∈ fieldNames (placed format) ↔ ∃ segment ∈ format.segments, segment.name = some name := by
  rw [fieldNames, List.mem_eraseDups, List.mem_filterMap]
  conv_rhs => rw [← map_segment_place format.bitLen format.segments]
  simp [placed]

theorem segmentsOf_ne_nil {format : Format} {name : String}
    (hname : name ∈ fieldNames (placed format)) : segmentsOf name (placed format) ≠ [] := by
  rw [fieldNames, List.mem_eraseDups, List.mem_filterMap] at hname
  obtain ⟨p, hp, hname⟩ := hname
  exact List.ne_nil_of_mem (List.mem_filter.2 ⟨hp, by rw [hname, beq_self_eq_true]⟩)

theorem map_name_of_forall₂_isMadeFor {format : Format} {extras : Dictionary Value}
    {names : List String} {fields : List Field}
    (h : List.Forall₂ (IsMadeFor format extras) names fields) : fields.map Field.name = names := by
  have heq : List.Forall₂ (fun name field => name = field.name) names fields := by
    refine h.imp fun name field hmade => ?_
    obtain ⟨found, -, rfl⟩ := hmade
    rfl
  have hmap := List.forall₂_map_right_iff.2 heq
  rw [List.forall₂_eq_eq_eq] at hmap
  exact hmap.symm

/-- Each field is made for its own name. -/
theorem isMadeFor_of_mem {format : Format} {extras : Dictionary Value} {names : List String}
    {fields : List Field} (h : List.Forall₂ (IsMadeFor format extras) names fields) {field : Field}
    (hfield : field ∈ fields) : field.name ∈ names ∧ IsMadeFor format extras field.name field := by
  have hnames := map_name_of_forall₂_isMadeFor h
  refine ⟨hnames ▸ List.mem_map_of_mem hfield, ?_⟩
  rw [← hnames, List.forall₂_map_left_iff, List.forall₂_same] at h
  exact h field hfield

theorem declares_of_isMadeFor {format : Format} {extras : Dictionary Value} {name : String}
    {field : Field} (hproper : format.IsProper) (hwidth : format.bitLen ≤ 64)
    (hname : name ∈ fieldNames (placed format)) (hmade : IsMadeFor format extras name field) :
    format.Declares field := by
  obtain ⟨found, hfound, rfl⟩ := hmade
  have hne := segmentsOf_ne_nil hname
  have hinPlace := isInPlace_of_mem_segmentsOf hproper name
  have htotal : totalBits (segmentsOf name (placed format)) ≤ 64 := by
    rw [totalBits_segmentsOf]
    exact Nat.le_trans (format.length_bitsOf_le name) hwidth
  have hdivide := divide_of_subfields_eq_ok hne hinPlace htotal hfound
  refine ⟨?_, ?_, hdivide.nodup, hdivide.lt, ?_, hdivide.ends⟩
  · exact hdivide.bits.trans (segmentsOf_placed_bits format name)
  · exact hdivide.bitsInField.trans (bitsInFieldOf_segmentsOf format name)
  · -- Without subfields there would be no bits, but each segment has at least one.
    show found ≠ []
    rintro rfl
    obtain ⟨p, hp⟩ := List.exists_mem_of_ne_nil _ hne
    have hnil := List.flatMap_eq_nil_iff.1 hdivide.bits.symm p hp
    have hlength : p.bits.length = 0 := by rw [hnil, List.length_nil]
    rw [PlacedSegment.bits, length_descending] at hlength
    exact Nat.ne_of_gt (hinPlace p hp).1 hlength

end Layout

/-! ## Layouts -/

/-- A layout is what a format says. -/
structure Format.LaysOut (format : Format) (layout : Layout) : Prop where
  form : layout.form.elementBitLen * layout.form.elementCount = format.bitLen
  width : format.bitLen ≤ 64
  fixed : layout.fixed = .ofPattern format.pattern
  declares : ∀ field ∈ layout.fields, format.Declares field
  names : ∀ name, name ∈ layout.fields.map Field.name ↔
    ∃ segment ∈ format.segments, segment.name = some name
  nodup : (layout.fields.map Field.name).Nodup
  order : layout.fields.Pairwise fun a b => b.msb < a.msb

theorem Format.LaysOut.isCounted {format : Format} {layout : Layout} (h : format.LaysOut layout) :
    layout.form.IsCounted := by
  rw [Form.IsCounted, h.form]
  exact Nat.lt_of_le_of_lt h.width (by decide)

theorem Format.LaysOut.bitLen_eq {format : Format} {layout : Layout} (h : format.LaysOut layout) :
    layout.form.bitLen = format.bitLen :=
  h.isCounted.bitLen_eq.trans h.form

theorem Format.Declares.msb_isGreatest {format : Format} {field : Field}
    (h : format.Declares field) :
    field.msb ∈ format.bitsOf field.name ∧ ∀ bit ∈ format.bitsOf field.name, bit ≤ field.msb :=
  h.bits ▸ field.msb_isGreatest h.subfields h.ends

/-- Fields of different names have no bit in common, and so different most significant bits. -/
theorem Format.Declares.msb_ne {format : Format} {a b : Field} (ha : format.Declares a)
    (hb : format.Declares b) (hne : a.name ≠ b.name) : a.msb ≠ b.msb := by
  intro heq
  exact Format.disjoint_bitsIn hne ha.msb_isGreatest.1 (heq ▸ hb.msb_isGreatest.1)

namespace Layout

theorem laysOut_of_ofFormat_eq_ok {format : Format} {extras : Dictionary Value} {layout : Layout}
    (hproper : format.IsProper) (h : ofFormat format extras = .ok layout) :
    format.LaysOut layout := by
  obtain ⟨form, fields, hform, hwidth, hfields, -, rfl⟩ := ofFormat_eq_ok.1 h
  have hperm : (sortFields fields).Perm fields := sortBy_perm _ fields
  have hnames := map_name_of_forall₂_isMadeFor hfields
  have hdeclares : ∀ field ∈ fields, format.Declares field := by
    intro field hfield
    obtain ⟨hname, hmade⟩ := isMadeFor_of_mem hfields hfield
    exact declares_of_isMadeFor hproper hwidth hname hmade
  have hsorted : ∀ field ∈ sortFields fields, format.Declares field := fun field hfield =>
    hdeclares field (hperm.mem_iff.1 hfield)
  have hnodup : ((sortFields fields).map Field.name).Nodup := by
    rw [(hperm.map Field.name).nodup_iff, hnames]
    exact nodup_eraseDups _
  refine ⟨length_of_checkElements hform, hwidth, rfl, hsorted, ?_, hnodup, ?_⟩
  · intro name
    show name ∈ (sortFields fields).map Field.name ↔ _
    rw [(hperm.map Field.name).mem_iff, hnames, mem_fieldNames]
  · show (sortFields fields).Pairwise fun a b => b.msb < a.msb
    have hle : (sortFields fields).Pairwise fun a b => decide (b.msb ≤ a.msb) = true := by
      apply pairwise_sortBy
      · intro a b c hab hbc
        exact transitive_of_number Field.msb c b a hbc hab
      · intro a b
        exact total_of_number Field.msb b a
    -- Sorting alone leaves equal bits possible, but fields of different names have none.
    have hne : (sortFields fields).Pairwise fun a b => a.name ≠ b.name := List.pairwise_map.1 hnodup
    refine (hle.and hne).imp_of_mem fun {a b} ha hb hab => ?_
    obtain ⟨hle, hne⟩ := hab
    have := (hsorted a ha).msb_ne (hsorted b hb) hne
    rw [decide_eq_true_iff] at hle
    omega

end Layout

end IsaCodec
