import IsaCodec.Layout.Machine
import IsaCodec.Proofs.Format.Size
import IsaCodec.Proofs.Layout.Legal

/-! # Operations of machine arithmetic

    An operation that does not trap gives what natural numbers give.  There
    is one lemma for each operation, with the bound under which it does not
    trap; lengths of formats are sums and differences of this kind.

    * **`lowMask_eq`** — masks are made without a trap for every length.
    * **`formatLen_of_lt`** — the length of a format, if it is below `2 ^ 32`.
    * **`untrapped`** — the outcome of a computation in which nothing traps. -/

namespace IsaCodec.Machine

/-! ## Operations -/

section operations

variable {ε : Type} {a b : Nat}

theorem uint32_size_eq : UInt32.size = 2 ^ 32 := rfl

theorem add_of_lt (h : a + b < 2 ^ 32) : (add a b : Except (Halt ε) Nat) = .ok (a + b) := by
  rw [add, uint32_size_eq, if_pos h]

theorem sub_of_le (h : b ≤ a) : (sub a b : Except (Halt ε) Nat) = .ok (a - b) :=
  if_pos h

theorem mul_of_lt (h : a * b < 2 ^ 32) : (mul a b : Except (Halt ε) Nat) = .ok (a * b) := by
  rw [mul, uint32_size_eq, if_pos h]

theorem truncate_of_lt (h : a < 2 ^ 32) : truncate a = a := by
  rw [truncate, uint32_size_eq, Nat.mod_eq_of_lt h]

theorem wrappingSub_of_le (ha : a < 2 ^ 32) (h : b ≤ a) : wrappingSub a b = a - b := by
  rw [wrappingSub, uint32_size_eq]
  omega

theorem sum_of_lt {ns : List Nat} (h : ns.sum < 2 ^ 32) :
    (sum ns : Except (Halt ε) Nat) = .ok ns.sum := by
  -- No partial sum is larger than the whole one.
  have hfold : ∀ start, start + ns.sum < 2 ^ 32 →
      ns.foldlM (m := Except (Halt ε)) add start = .ok (start + ns.sum) := by
    clear h
    induction ns with
    | nil => intro start _; rfl
    | cons n ns ih =>
      intro start hlt
      rw [List.sum_cons, ← Nat.add_assoc] at *
      rw [List.foldlM_cons, add_of_lt (by omega)]
      exact ih (start + n) hlt
  rw [sum, hfold 0 (by omega), Nat.zero_add]

theorem shiftLeft_of_lt {word : Code} (h : a < 64) :
    (shiftLeft word a : Except (Halt ε) Code) = .ok (word <<< a) :=
  if_pos h

theorem toNat_one_shiftLeft (h : a < 64) : ((1 : Code) <<< a).toNat = 2 ^ a := by
  have hlt : 2 ^ a < 2 ^ 64 := Nat.pow_lt_pow_right (by decide) h
  rw [BitVec.toNat_shiftLeft]
  show 1 <<< a % 2 ^ 64 = 2 ^ a
  rw [Nat.one_shiftLeft, Nat.mod_eq_of_lt hlt]

theorem one_shiftLeft_sub_one (h : a < 64) : (1 : Code) <<< a - 1 = Code.lowMask a := by
  have hone := toNat_one_shiftLeft h
  have hlt : 2 ^ a < 2 ^ 64 := Nat.pow_lt_pow_right (by decide) h
  have hpos : 0 < 2 ^ a := Nat.two_pow_pos a
  have hnat : (1 : Code) <<< a - 1 = BitVec.ofNat 64 (2 ^ a - 1) := by
    apply BitVec.eq_of_toNat_eq
    rw [BitVec.toNat_sub_of_le (BitVec.le_def.2 (hone ▸ hpos)), hone, BitVec.toNat_ofNat,
      Nat.mod_eq_of_lt (by omega)]
    rfl
  rw [hnat]
  apply BitVec.eq_of_getLsbD_eq
  intro i hi
  rw [BitVec.getLsbD_ofNat, Nat.testBit_two_pow_sub_one, Code.getLsbD_lowMask]
  simp [hi]

theorem lowMask_eq (len : Nat) : (lowMask len : Except (Halt ε) Code) = .ok (Code.lowMask len) := by
  unfold lowMask
  by_cases hlen : 64 ≤ len
  · rw [if_pos hlen, Code.lowMask, Nat.sub_eq_zero_of_le hlen, BitVec.ushiftRight_zero]
  · -- The word that one is taken from has a bit.
    rw [if_neg hlen, shiftLeft_of_lt (Nat.lt_of_not_le hlen)]
    have hpos : (1 : Code) ≤ (1 : Code) <<< len := by
      rw [BitVec.le_def, toNat_one_shiftLeft (Nat.lt_of_not_le hlen)]
      exact Nat.two_pow_pos len
    show subWord ((1 : Code) <<< len) 1 = _
    rw [subWord, if_pos hpos, one_shiftLeft_sub_one (Nat.lt_of_not_le hlen)]

theorem maskAt_of_lt {len : Nat} (h : a < 64) :
    (maskAt len a : Except (Halt ε) Code) = .ok (Code.lowMask len <<< a) := by
  unfold maskAt
  rw [lowMask_eq]
  exact shiftLeft_of_lt h

end operations

/-! ## Lengths -/

section lengths

variable {ε : Type}

theorem segmentLen_of_lt {segment : Segment} (h : segment.bitLen < 2 ^ 32) :
    segmentLen segment = segment.bitLen :=
  truncate_of_lt h

theorem elementLen_of_lt {element : Element} (h : element.bitLen < 2 ^ 32) :
    (elementLen element : Except (Halt ε) Nat) = .ok element.bitLen := by
  have hlengths : element.segments.map segmentLen = element.segments.map Segment.bitLen := by
    apply List.map_congr_left
    intro segment hsegment
    exact segmentLen_of_lt (Nat.lt_of_le_of_lt (Element.bitLen_le_of_mem hsegment) h)
  rw [elementLen, hlengths]
  rw [element.bitLen_eq_sum] at *
  exact sum_of_lt h

theorem formatLen_of_lt {format : Format} (h : format.bitLen < 2 ^ 32) :
    (formatLen format.elements : Except (Halt ε) Nat) = .ok format.bitLen := by
  have hlengths : format.elements.mapM (elementLen (ε := ε)) =
      .ok (format.elements.map Element.bitLen) := by
    rw [mapM_eq_ok, List.forall₂_map_right_iff, List.forall₂_same]
    intro element helement
    exact elementLen_of_lt (Nat.lt_of_le_of_lt (Format.bitLen_le_of_mem helement) h)
  unfold formatLen
  rw [hlengths]
  rw [format.bitLen_eq_sum] at *
  exact sum_of_lt h

theorem rangeLen_of_isValid {range : BitRange} (h : range.isValid) :
    (rangeLen range : Except (Halt ε) Nat) = .ok range.width := by
  obtain ⟨hle, hlt⟩ := BitRange.isValid_iff.1 h
  unfold rangeLen
  rw [sub_of_le hle]
  exact add_of_lt (by omega)

theorem subfieldLen_of_le {subfield : Subfield} (hle : subfield.lsb ≤ subfield.msb)
    (hlt : subfield.msb < 64) :
    (subfieldLen subfield : Except (Halt ε) Nat) = .ok subfield.width := by
  unfold subfieldLen
  rw [sub_of_le hle]
  exact add_of_lt (by omega)

end lengths

/-! ## Outcomes -/

section outcomes

variable {ε α β : Type}

/-- The outcome of a computation with natural numbers as that of one in which nothing traps, its
    result represented in another way. -/
def untrapped (represent : α → β) (outcome : Except ε α) : Except (Halt ε) β :=
  (outcome.map represent).mapError .fault

@[simp] theorem untrapped_ok (represent : α → β) (value : α) :
    untrapped (ε := ε) represent (.ok value) = .ok (represent value) := rfl

@[simp] theorem untrapped_error (represent : α → β) (fault : ε) :
    untrapped represent (.error fault) = .error (.fault fault) := rfl

theorem mapM_eq_untrapped {γ : Type} {represent : α → β} {machine : γ → Except (Halt ε) β}
    {step : γ → Except ε α} {xs : List γ}
    (h : ∀ x ∈ xs, machine x = untrapped represent (step x)) :
    xs.mapM machine = untrapped (List.map represent) (xs.mapM step) := by
  induction xs with
  | nil => rfl
  | cons x xs ih =>
    obtain ⟨hx, hxs⟩ := List.forall_mem_cons.1 h
    rw [List.mapM_cons, List.mapM_cons, hx, ih hxs]
    cases step x with
    | error fault => rfl
    | ok value =>
      cases xs.mapM step with
      | error fault => rfl
      | ok values => rfl

end outcomes

end IsaCodec.Machine
