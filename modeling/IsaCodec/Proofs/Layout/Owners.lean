import IsaCodec.Proofs.Layout.Subfields

/-! # Owners of bits

    What a format says about fields, read off its text: each bit belongs to
    the field of its segment or to none, and the bits of a field are paired
    in order with bits of its value.  Nothing is said here about subfields or
    about how segments are placed; that the places agree with this reading is
    what the module shows.

    * **`Format.bitsOf`** — the instruction bits of a field.
    * **`Format.bitsInField`** — in parallel, the bits of its value.
    * **`flatMap_bits_place`** — the segments that belong to a field, each in
      its place, have these instruction bits. -/

namespace IsaCodec

namespace Format

/-! ## The reading of a format -/

/-- The names of the fields to which bits belong, for each bit of some segments. -/
def ownersIn (segments : List Segment) : List (Option String) :=
  segments.flatMap fun segment => segment.pattern.map fun _ => segment.name

/-- For each bit of a format, the most significant one first, the field that it belongs to. -/
def owners (format : Format) : List (Option String) :=
  ownersIn format.segments

/-- The bits of some segments that belong to a field.  The last bit is bit 0. -/
def bitsIn (segments : List Segment) (field : String) : List Nat :=
  (((descending 0 (ownersIn segments).length).zip (ownersIn segments)).filter
    (·.2 == some field)).map (·.1)

/-- The instruction bits of a field, in order of declaration. -/
def bitsOf (format : Format) (field : String) : List Nat :=
  bitsIn format.segments field

/-- The explicit ranges of a field, in order of declaration. -/
def rangesOf (format : Format) (field : String) : List BitRange :=
  (format.segments.filter (·.name == some field)).flatMap Segment.ranges

/-- The bits of a field's value, in the order of its instruction bits: those of its ranges, each
    from the highest bit down, or if it has no ranges all bits from the highest one down to 0. -/
def bitsInField (format : Format) (field : String) : List Nat :=
  match format.rangesOf field with
  | [] => descending 0 (format.bitsOf field).length
  | range :: ranges => (range :: ranges).flatMap BitRange.bits

theorem length_ownersIn (segments : List Segment) :
    (ownersIn segments).length = (segments.flatMap Segment.pattern).length := by
  simp only [ownersIn, List.length_flatMap, List.length_map]

theorem length_owners (format : Format) : format.owners.length = format.bitLen := by
  rw [owners, length_ownersIn, bitLen, pattern_eq_flatMap_segments]

/-! ## Bits of different fields -/

section bitsIn

variable {segments : List Segment} {field field' : String} {bit : Nat}

theorem mem_bitsIn : bit ∈ bitsIn segments field ↔
    (bit, some field) ∈ (descending 0 (ownersIn segments).length).zip (ownersIn segments) := by
  simp only [bitsIn, List.mem_map, List.mem_filter, beq_iff_eq, Prod.exists]
  constructor
  · intro h
    obtain ⟨bit, owner, ⟨hmem, rfl⟩, rfl⟩ := h
    exact hmem
  · intro hmem
    exact ⟨bit, some field, ⟨hmem, rfl⟩, rfl⟩

theorem nodup_positions (segments : List Segment) :
    (((descending 0 (ownersIn segments).length).zip (ownersIn segments)).map (·.1)).Nodup := by
  rw [List.map_fst_zip (by simp)]
  exact nodup_descending _ _

theorem nodup_bitsIn : (bitsIn segments field).Nodup :=
  (nodup_positions segments).sublist (List.filter_sublist.map _)

theorem lt_of_mem_bitsIn (hbit : bit ∈ bitsIn segments field) :
    bit < (ownersIn segments).length := by
  have hmem := (List.of_mem_zip (mem_bitsIn.1 hbit)).1
  rw [mem_descending] at hmem
  omega

theorem length_bitsIn_le : (bitsIn segments field).length ≤ (ownersIn segments).length := by
  rw [bitsIn, List.length_map]
  refine Nat.le_trans (List.length_filter_le _ _) (Nat.le_of_eq ?_)
  rw [List.length_zip, length_descending, Nat.min_self]

/-- No bit belongs to two fields. -/
theorem disjoint_bitsIn (hne : field ≠ field') :
    (bitsIn segments field).Disjoint (bitsIn segments field') := by
  intro bit hbit hbit'
  have heq := List.inj_on_of_nodup_map (nodup_positions segments) (mem_bitsIn.1 hbit)
    (mem_bitsIn.1 hbit') rfl
  exact hne (by simpa using heq)

theorem bitsIn_cons {first : Segment} {rest : List Segment} :
    bitsIn (first :: rest) field =
      (if first.name = some field then descending (ownersIn rest).length first.bitLen else []) ++
        bitsIn rest field := by
  have howners : ownersIn (first :: rest) =
      (first.pattern.map fun _ => first.name) ++ ownersIn rest := List.flatMap_cons
  have hlength : (descending (ownersIn rest).length first.bitLen).length =
      (first.pattern.map fun _ => first.name).length := by
    rw [length_descending, List.length_map]
    rfl
  have htotal : (ownersIn (first :: rest)).length = first.bitLen + (ownersIn rest).length := by
    rw [howners, List.length_append, List.length_map]
    rfl
  unfold bitsIn
  -- The first segment has the highest bits; all of them have the same owner.
  rw [htotal, descending_add, Nat.zero_add, howners, List.zip_append hlength, List.filter_append,
    List.map_append]
  congr 1
  by_cases hname : first.name = some field
  · rw [if_pos hname, List.filter_eq_self.2, List.map_fst_zip (Nat.le_of_eq hlength)]
    intro p hp
    obtain ⟨-, hp⟩ := List.of_mem_zip hp
    obtain ⟨-, -, hp⟩ := List.mem_map.1 hp
    rw [← hp, hname, beq_self_eq_true]
  · rw [if_neg hname, List.filter_eq_nil_iff.2, List.map_nil]
    intro p hp
    obtain ⟨-, hp⟩ := List.of_mem_zip hp
    obtain ⟨-, -, hp⟩ := List.mem_map.1 hp
    rw [← hp, beq_iff_eq]
    exact hname

end bitsIn

theorem length_bitsOf_le (format : Format) (field : String) :
    (format.bitsOf field).length ≤ format.bitLen :=
  format.length_owners ▸ length_bitsIn_le

theorem lt_of_mem_bitsOf {format : Format} {field : String} {bit : Nat}
    (hbit : bit ∈ format.bitsOf field) : bit < format.bitLen :=
  format.length_owners ▸ lt_of_mem_bitsIn hbit

end Format

namespace Layout

open Format

/-! ## Places -/

theorem map_segment_place (position : Nat) (segments : List Segment) :
    (place position segments).map PlacedSegment.segment = segments := by
  induction segments generalizing position with
  | nil => rfl
  | cons first rest ih => rw [place, List.map_cons, ih]

theorem place_cons {first : Segment} {rest : List Segment} :
    place (ownersIn (first :: rest)).length (first :: rest) =
      ⟨first, first.bitLen + (ownersIn rest).length - 1, (ownersIn rest).length⟩ ::
        place (ownersIn rest).length rest := by
  have htotal : (ownersIn (first :: rest)).length = first.bitLen + (ownersIn rest).length := by
    simp [ownersIn, Segment.bitLen]
  rw [htotal, place, Nat.add_sub_cancel_left]

theorem isInPlace_of_mem_place {segments : List Segment}
    (hpos : ∀ segment ∈ segments, 0 < segment.bitLen) :
    ∀ p ∈ place (ownersIn segments).length segments, p.IsInPlace := by
  induction segments with
  | nil => exact fun p hp => nomatch hp
  | cons first rest ih =>
    obtain ⟨hfirst, hrest⟩ := List.forall_mem_cons.1 hpos
    rw [place_cons]
    refine List.forall_mem_cons.2 ⟨⟨hfirst, ?_⟩, ih hrest⟩
    show first.bitLen + (ownersIn rest).length - 1 + 1 = (ownersIn rest).length + first.bitLen
    omega

/-- **Places agree with owners**: the segments of a field, each in its place, have the bits that
    belong to the field. -/
theorem flatMap_bits_place (field : String) (segments : List Segment) :
    (segmentsOf field (place (ownersIn segments).length segments)).flatMap PlacedSegment.bits =
      bitsIn segments field := by
  induction segments with
  | nil => rfl
  | cons first rest ih =>
    rw [place_cons, segmentsOf, List.filter_cons, bitsIn_cons, ← ih]
    by_cases hname : first.name = some field
    · rw [if_pos (by simpa using hname), if_pos hname, List.flatMap_cons]
      rfl
    · rw [if_neg (by simpa using hname), if_neg hname]
      rfl

end Layout

end IsaCodec
