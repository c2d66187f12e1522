import IsaCodec.Proofs.Layout.Compiled

/-! # Elements and subfields

    The element of a subfield is decided by its highest bit alone.  This says
    something about its other bits only because no segment of a format
    reaches from one element into the next.

    * **`Form.elementBits`** — the bits of an element, read off a form.
    * **`Field.getLsbD_decodeElement`** — for a field whose subfields stay
      inside elements, the pairs of which an element decides.
    * **`exists_element_of_mem_placed`** — the segments of a format stay
      inside elements.  The induction is on the elements; all of them have
      the same length, so that each begins at a multiple of it. -/

namespace IsaCodec

/-! ## Elements -/

namespace Form

/-- The bits of an encoding element, the most significant one first.  The first element has the
    highest bits. -/
def elementBits (form : Form) (element : Nat) : List Nat :=
  ((descending 0 form.bitLen).drop (element * form.elementBitLen)).take form.elementBitLen

example : elementBits ⟨4, 3⟩ 0 = [11, 10, 9, 8] := by decide

variable {form : Form} {element bit : Nat}

/-- The element of a bit is the one that it is in. -/
theorem mem_elementBits :
    bit ∈ form.elementBits element ↔ bit < form.bitLen ∧ form.elementOf bit = element := by
  simp only [elementBits, List.mem_take_iff_getElem, List.getElem_drop, getElem_descending,
    List.length_drop, length_descending, Nat.lt_min, elementOf]
  constructor
  · intro h
    obtain ⟨i, ⟨hi, hlt⟩, rfl⟩ := h
    have hposition : form.bitLen - 1 - (0 + (form.bitLen - 1 - (element * form.elementBitLen + i))) =
        element * form.elementBitLen + i := by omega
    refine ⟨by omega, ?_⟩
    rw [hposition]
    exact Nat.div_eq_of_lt_le (Nat.le_add_right _ _) (by rw [Nat.succ_mul]; omega)
  · intro h
    obtain ⟨hlt, rfl⟩ := h
    have hpos : 0 < form.elementBitLen :=
      Nat.pos_of_mul_pos_right (Nat.lt_of_lt_of_le (Nat.zero_lt_of_lt hlt) form.bitLen_le)
    -- The bit stands as far down in its element as the remainder says.
    have hdivide := Nat.div_add_mod' (form.bitLen - 1 - bit) form.elementBitLen
    exact ⟨_, ⟨Nat.mod_lt (form.bitLen - 1 - bit) hpos, by omega⟩, by omega⟩

theorem elementOf_lt (h : bit < form.bitLen) : form.elementOf bit < form.elementCount := by
  rw [elementOf]
  refine Nat.div_lt_of_lt_mul (Nat.lt_of_lt_of_le ?_ form.bitLen_le)
  omega

/-- The elements are numbered from the highest one down, and begin at multiples of their length. -/
theorem mem_elementBits_of_le (hcounted : form.IsCounted) {index : Nat}
    (hindex : index < form.elementCount)
    (hlo : form.elementBitLen * index ≤ bit) (hhi : bit < form.elementBitLen * (index + 1)) :
    bit ∈ form.elementBits (form.elementCount - (index + 1)) := by
  have hlt : bit < form.elementBitLen * form.elementCount :=
    Nat.lt_of_lt_of_le hhi (Nat.mul_le_mul_left form.elementBitLen hindex)
  refine mem_elementBits.2 ⟨hcounted.bitLen_eq ▸ hlt, ?_⟩
  have hquotient : bit / form.elementBitLen = index := by
    rw [Nat.mul_comm] at hlo hhi
    exact Nat.div_eq_of_lt_le hlo hhi
  rw [elementOf, Nat.sub_sub, Nat.add_comm 1, hcounted.bitLen_eq, Nat.mul_sub_div _ _ _ hlt,
    hquotient]

end Form

/-! ## Fields -/

/-- All bits of a subfield are in its element. -/
structure Subfield.IsInsideElement (subfield : Subfield) (form : Form) : Prop where
  ends : subfield.lsb ≤ subfield.msb
  bits : ∀ bit ∈ subfield.bits, bit ∈ form.elementBits (subfield.element form)

namespace Subfield

variable {subfield : Subfield} {form : Form} {element : Nat}

theorem msb_mem_bits (hends : subfield.lsb ≤ subfield.msb) : subfield.msb ∈ subfield.bits := by
  rw [bits, mem_descending, width]
  omega

/-- If there is an element with all bits, then it is the one of the highest bit. -/
theorem isInsideElement_of_subset (hends : subfield.lsb ≤ subfield.msb)
    (hbits : subfield.bits ⊆ form.elementBits element) : subfield.IsInsideElement form := by
  obtain ⟨-, rfl⟩ := Form.mem_elementBits.1 (hbits (msb_mem_bits hends))
  exact ⟨hends, hbits⟩

theorem IsInsideElement.element_lt (h : subfield.IsInsideElement form) :
    subfield.element form < form.elementCount :=
  Form.elementOf_lt (Form.mem_elementBits.1 (h.bits _ (msb_mem_bits h.ends))).1

/-- A subfield is in the element of each of its bits. -/
theorem IsInsideElement.element_eq_iff (h : subfield.IsInsideElement form) {bit : Nat}
    (hbit : bit ∈ subfield.bits) : subfield.element form = element ↔
      bit ∈ form.elementBits element := by
  obtain ⟨hlt, helement⟩ := Form.mem_elementBits.1 (h.bits bit hbit)
  rw [Form.mem_elementBits, helement, and_iff_right hlt]

end Subfield

/-- No subfield of a field reaches into a second element. -/
def Field.IsInsideElements (field : Field) (form : Form) : Prop :=
  ∀ subfield ∈ field.subfields, subfield.IsInsideElement form

namespace Field

variable {field : Field} {form : Form} {element : Nat}

/-- **Decoding of an element**: a bit of the value is set exactly if it is paired with an
    instruction bit of the element that is set in the code. -/
theorem getLsbD_decodeElement (h : field.IsInsideElements form) {code : Code} {v : Nat} :
    (field.decodeElement code form element).getLsbD v = true ↔
      v < 64 ∧ ∃ bit, (bit, v) ∈ field.bits.zip field.bitsInField ∧
        bit ∈ form.elementBits element ∧ code.getLsbD bit := by
  simp only [decodeElement, Code.getLsbD_union, List.any_map, List.any_eq_true,
    Function.comp_apply, List.mem_filter, beq_iff_eq, Subfield.getLsbD_decode, zip_bits,
    List.mem_flatMap]
  constructor
  · intro hset
    obtain ⟨subfield, ⟨hsubfield, helement⟩, hv, bit, hpair, hcode⟩ := hset
    have hbit := ((h subfield hsubfield).element_eq_iff (List.of_mem_zip hpair).1).1 helement
    exact ⟨hv, bit, ⟨subfield, hsubfield, hpair⟩, hbit, hcode⟩
  · intro hset
    obtain ⟨hv, bit, ⟨subfield, hsubfield, hpair⟩, hbit, hcode⟩ := hset
    have helement := ((h subfield hsubfield).element_eq_iff (List.of_mem_zip hpair).1).2 hbit
    exact ⟨subfield, ⟨hsubfield, helement⟩, hv, bit, hpair, hcode⟩

/-- A field is in an element if one of its bits is. -/
theorem hasElement_iff (h : field.IsInsideElements form) :
    field.hasElement form element = true ↔ ∃ bit ∈ field.bits, bit ∈ form.elementBits element := by
  simp only [hasElement, List.any_eq_true, beq_iff_eq, bits, List.mem_flatMap]
  constructor
  · intro hhas
    obtain ⟨subfield, hsubfield, helement⟩ := hhas
    have hmsb := Subfield.msb_mem_bits (h subfield hsubfield).ends
    exact ⟨_, ⟨subfield, hsubfield, hmsb⟩, ((h subfield hsubfield).element_eq_iff hmsb).1 helement⟩
  · intro hhas
    obtain ⟨bit, ⟨subfield, hsubfield, hbit⟩, helement⟩ := hhas
    exact ⟨subfield, hsubfield, ((h subfield hsubfield).element_eq_iff hbit).2 helement⟩

end Field

/-! ## Places -/

namespace Layout

/-- Segments that come later have lower places. -/
theorem place_append (position : Nat) (segments rest : List Segment) :
    place ((segments.flatMap Segment.pattern).length + position) (segments ++ rest) =
      place ((segments.flatMap Segment.pattern).length + position) segments ++
        place position rest := by
  induction segments with
  | nil => rw [List.flatMap_nil, List.length_nil, Nat.zero_add]; rfl
  | cons first segments ih =>
    have hlower : (segments.flatMap Segment.pattern).length + position =
        ((first :: segments).flatMap Segment.pattern).length + position - first.bitLen := by
      rw [List.flatMap_cons, List.length_append, Segment.bitLen]
      omega
    rw [List.cons_append, place, place, List.cons_append, ← hlower, ih]

/-- Segments have their places between the ends of the run that they fill. -/
theorem bounds_of_mem_place {position : Nat} {segments : List Segment} :
    ∀ p ∈ place ((segments.flatMap Segment.pattern).length + position) segments,
      position ≤ p.lsb ∧
        p.lsb + p.segment.bitLen ≤ (segments.flatMap Segment.pattern).length + position := by
  induction segments with
  | nil => exact fun p hp => nomatch hp
  | cons first segments ih =>
    have hlength : ((first :: segments).flatMap Segment.pattern).length =
        first.bitLen + (segments.flatMap Segment.pattern).length := by
      rw [List.flatMap_cons, List.length_append]
      rfl
    rw [hlength, place, List.forall_mem_cons, Nat.add_assoc, Nat.add_sub_cancel_left]
    refine ⟨⟨Nat.le_add_left _ _, Nat.le_of_eq (Nat.add_comm _ _)⟩, fun p hp => ?_⟩
    obtain ⟨hlo, hhi⟩ := ih p hp
    exact ⟨hlo, by omega⟩

/-- A segment of elements of equal length has its place inside one of them. -/
theorem bounds_of_mem_place_elements {len : Nat} {elements : List Element}
    (hlen : ∀ element ∈ elements, element.bitLen = len) :
    ∀ p ∈ place (len * elements.length) (elements.flatMap Element.segments),
      ∃ index < elements.length,
        len * index ≤ p.lsb ∧ p.lsb + p.segment.bitLen ≤ len * (index + 1) := by
  induction elements with
  | nil => exact fun p hp => nomatch hp
  | cons first elements ih =>
    obtain ⟨hfirst, helements⟩ := List.forall_mem_cons.1 hlen
    have htop : len * (first :: elements).length =
        (first.segments.flatMap Segment.pattern).length + len * elements.length := by
      rw [List.length_cons, Nat.mul_succ, Nat.add_comm, ← hfirst]
      rfl
    intro p hp
    rw [htop, List.flatMap_cons, place_append, List.mem_append] at hp
    -- The first element lies above as many others as come after it.
    rcases hp with hp | hp
    · obtain ⟨hlo, hhi⟩ := bounds_of_mem_place p hp
      exact ⟨elements.length, Nat.lt_succ_self _, hlo, by rwa [← htop] at hhi⟩
    · obtain ⟨index, hindex, hbounds⟩ := ih helements p hp
      exact ⟨index, Nat.lt_succ_of_lt hindex, hbounds⟩

/-- Each segment of a format is in one element. -/
theorem exists_element_of_mem_placed {format : Format} {form : Form}
    (hform : checkElements format.elements = .ok form) (hcounted : form.IsCounted) :
    ∀ p ∈ placed format, ∃ element, p.bits ⊆ form.elementBits element := by
  intro p hp
  have hlength := length_of_checkElements hform
  obtain ⟨first, rest, helements, hall, rfl⟩ := checkElements_eq_ok.1 hform
  have hequal : ∀ element ∈ format.elements, element.bitLen = first.bitLen := by
    rw [helements]
    exact List.forall_mem_cons.2 ⟨rfl, hall⟩
  have hcount : format.elements.length = rest.length + 1 := by rw [helements, List.length_cons]
  rw [placed, ← hlength, ← hcount] at hp
  obtain ⟨index, hindex, hlo, hhi⟩ := bounds_of_mem_place_elements hequal p hp
  -- Elements are numbered from the highest one, but their places were counted from the lowest.
  refine ⟨rest.length + 1 - (index + 1), fun bit hbit => ?_⟩
  obtain ⟨hlsb, hlt⟩ := mem_descending.1 hbit
  exact Form.mem_elementBits_of_le hcounted (hcount ▸ hindex) (Nat.le_trans hlo hlsb)
    (Nat.lt_of_lt_of_le hlt hhi)

/-- **Subfields stay inside elements** in the layout of a format. -/
theorem isInsideElements_of_ofFormat_eq_ok {format : Format} {extras : Dictionary Value}
    {layout : Layout} (hproper : format.IsProper) (h : ofFormat format extras = .ok layout) :
    ∀ field ∈ layout.fields, field.IsInsideElements layout.form := by
  intro field hfield subfield hsubfield
  have hlaysOut := laysOut_of_ofFormat_eq_ok hproper h
  have hcounted := hlaysOut.isCounted
  have hends := (hlaysOut.declares field hfield).ends subfield hsubfield
  obtain ⟨form, fields, hform, -, hfields, -, rfl⟩ := ofFormat_eq_ok.1 h
  have hmem : field ∈ fields := (sortBy_perm _ fields).mem_iff.1 hfield
  obtain ⟨-, found, hfound, heq⟩ := isMadeFor_of_mem hfields hmem
  rw [← heq] at hsubfield
  -- The subfield was made from a segment, and that has its place in one element.
  obtain ⟨p, hp, hbits⟩ := exists_subset_bits_of_subfields_eq_ok
    (isInPlace_of_mem_segmentsOf hproper _) hfound subfield hsubfield
  obtain ⟨element, helement⟩ :=
    exists_element_of_mem_placed hform hcounted p (List.mem_of_mem_filter hp)
  exact Subfield.isInsideElement_of_subset hends (List.Subset.trans hbits helement)

end Layout

end IsaCodec
