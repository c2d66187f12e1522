import IsaCodec.DecisionTree.Discriminator
import Mathlib.Data.List.MinMax

/-! # What discriminators tell apart

    A discriminator divides the candidates cleanly: each of them fixes all of
    its bits or none (`fixes_all_or_none`), and some candidate fixes all of
    them (`exists_fixes_mask`).  Bits that only some candidates fix are taken
    only if trees may be split by them (`fixes_mask_of_not_split`).  If they
    may, there is a discriminator as long as some candidate fixes a free bit
    (`fixes_no_free_of_mask_eq_zero`). -/

namespace IsaCodec

/-! ## Bits of masks -/

namespace Code

theorem and_eq_right_iff {word mask : Code} :
    word &&& mask = mask ↔ ∀ i, mask.getLsbD i → word.getLsbD i := by
  constructor
  · intro h i hi
    rw [← h, BitVec.getLsbD_and, Bool.and_eq_true] at hi
    exact hi.1
  · intro h
    apply BitVec.eq_of_getLsbD_eq
    intro i _
    rw [BitVec.getLsbD_and]
    cases hi : mask.getLsbD i with
    | false => rw [Bool.and_false]
    | true => rw [h i hi, Bool.and_true]

theorem and_eq_zero_iff {word mask : Code} :
    word &&& mask = 0 ↔ ∀ i, mask.getLsbD i → word.getLsbD i = false := by
  constructor
  · intro h i hi
    have hzero : (word &&& mask).getLsbD i = false := by
      rw [h]
      exact BitVec.getLsbD_zero
    rwa [BitVec.getLsbD_and, hi, Bool.and_true] at hzero
  · intro h
    apply BitVec.eq_of_getLsbD_eq
    intro i _
    rw [BitVec.getLsbD_and]
    cases hi : mask.getLsbD i with
    | false => simp
    | true => simp [h i hi]

end Code

namespace Discriminator

variable {candidates : List FixedBits} {free : Code} {split : Bool}

/-! ## The best bit -/

/-- The first best item is the one that a **scan from the front** is left with, if it changes over
    to an item only for a higher score. -/
theorem firstBest?_eq_argmax {α : Type} (score : α → Nat) (xs : List α) :
    firstBest? score xs = xs.argmax score := by
  induction xs with
  | nil => rfl
  | cons x xs ih =>
    rw [firstBest?, ih, List.argmax_cons]
    cases xs.argmax score <;> rfl

theorem contains_fixedBy {bit : Nat} :
    (fixedBy candidates bit).contains true ↔ ∃ fixed ∈ candidates, fixed.mask.getLsbD bit := by
  unfold fixedBy
  simp

/-- Is a bit free, and does some candidate fix it? -/
def IsUsable (candidates : List FixedBits) (free : Code) (bit : Nat) : Prop :=
  free.getLsbD bit ∧ ∃ fixed ∈ candidates, fixed.mask.getLsbD bit

/-- The usable bits from the most significant one down. -/
def usableBits (candidates : List FixedBits) (free : Code) : List Nat :=
  positions.filter fun bit => free.getLsbD bit && (fixedBy candidates bit).contains true

theorem mem_usableBits {bit : Nat} :
    bit ∈ usableBits candidates free ↔ IsUsable candidates free bit := by
  rw [usableBits, List.mem_filter, Bool.and_eq_true, contains_fixedBy]
  refine ⟨fun h => h.2, fun h => ⟨?_, h⟩⟩
  have hbit := BitVec.lt_of_getLsbD h.1
  simpa [positions] using hbit

theorem bestBit?_eq_argmax (candidates : List FixedBits) (free : Code) :
    bestBit? candidates free = (usableBits candidates free).argmax (score candidates) :=
  firstBest?_eq_argmax _ _

theorem isUsable_of_bestBit? {best : Nat} (h : bestBit? candidates free = some best) :
    IsUsable candidates free best := by
  rw [bestBit?_eq_argmax] at h
  exact mem_usableBits.1 (List.argmax_mem h)

theorem bestBit?_eq_none :
    bestBit? candidates free = none ↔ ∀ bit, ¬ IsUsable candidates free bit := by
  rw [bestBit?_eq_argmax, List.argmax_eq_none, List.eq_nil_iff_forall_not_mem]
  exact forall_congr' fun bit => not_congr mem_usableBits

/-- Bits that the same candidates fix are fixed by a candidate together. -/
theorem fixedBy_eq_iff {bit bit' : Nat} :
    fixedBy candidates bit = fixedBy candidates bit' ↔
      ∀ fixed ∈ candidates, (fixed.mask.getLsbD bit ↔ fixed.mask.getLsbD bit') := by
  unfold fixedBy
  rw [List.map_inj_left]
  exact forall₂_congr fun _ _ => Bool.eq_iff_iff

/-! ## Masks -/

/-- The two rules for masks, and the third one that there is none. -/
theorem mask_cases (split : Bool) (candidates : List FixedBits) (free : Code) :
    (mask split candidates free = shared candidates free ∧ shared candidates free ≠ 0) ∨
      (shared candidates free = 0 ∧ split = true ∧
        mask split candidates free = partialMask candidates free) ∨
      (shared candidates free = 0 ∧ split = false ∧ mask split candidates free = 0) := by
  unfold mask
  by_cases hshared : shared candidates free = 0
  · cases split <;> simp [hshared]
  · exact .inl ⟨if_pos hshared, hshared⟩

theorem fixes_shared {fixed : FixedBits} (hfixed : fixed ∈ candidates) :
    fixed.mask &&& shared candidates free = shared candidates free := by
  rw [Code.and_eq_right_iff]
  intro i hi
  rw [getLsbD_shared, Bool.and_eq_true, List.all_eq_true] at hi
  exact hi.2 fixed hfixed

/-- The best bit is one of the partial mask. -/
theorem getLsbD_partialMask_best {best : Nat} (h : bestBit? candidates free = some best) :
    (partialMask candidates free).getLsbD best := by
  rw [getLsbD_partialMask h, (isUsable_of_bestBit? h).1]
  simp

/-- There is a mask exactly if there is a best bit, as the mask has that bit. -/
theorem partialMask_eq_zero :
    partialMask candidates free = 0 ↔ bestBit? candidates free = none := by
  constructor
  · intro hzero
    cases hbest : bestBit? candidates free with
    | none => rfl
    | some best =>
      have hbit := getLsbD_partialMask_best hbest
      rw [hzero] at hbit
      cases BitVec.getLsbD_zero.symm.trans hbit
  · intro hnone
    rw [partialMask, hnone]

/-- A discriminator consists of free bits. -/
theorem mask_and_free : mask split candidates free &&& free = mask split candidates free := by
  rw [BitVec.and_comm, Code.and_eq_right_iff]
  exact fun i => free_of_mask

theorem fixes_all_or_none_of_partialMask {fixed : FixedBits} (hfixed : fixed ∈ candidates) :
    fixed.mask &&& partialMask candidates free = partialMask candidates free ∨
      fixed.mask &&& partialMask candidates free = 0 := by
  cases hbest : bestBit? candidates free with
  | none =>
    rw [partialMask_eq_zero.2 hbest]
    exact .inr BitVec.and_zero
  | some best =>
    -- All bits of the mask are fixed by those candidates that fix the best one.
    have hsame : ∀ i, (partialMask candidates free).getLsbD i →
        fixed.mask.getLsbD i = fixed.mask.getLsbD best := by
      intro i hi
      rw [getLsbD_partialMask hbest, Bool.and_eq_true, beq_iff_eq] at hi
      exact Bool.eq_iff_iff.2 (fixedBy_eq_iff.1 hi.2 fixed hfixed)
    cases hfixes : fixed.mask.getLsbD best with
    | true => exact .inl (Code.and_eq_right_iff.2 fun i hi => (hsame i hi).trans hfixes)
    | false => exact .inr (Code.and_eq_zero_iff.2 fun i hi => (hsame i hi).trans hfixes)

/-- A candidate fixes **all bits** of a discriminator **or none** of them. -/
theorem fixes_all_or_none {fixed : FixedBits} (hfixed : fixed ∈ candidates) :
    fixed.mask &&& mask split candidates free = mask split candidates free ∨
      fixed.mask &&& mask split candidates free = 0 := by
  rcases mask_cases split candidates free with ⟨hmask, -⟩ | ⟨-, -, hmask⟩ | ⟨-, -, hmask⟩
  · rw [hmask]
    exact .inl (fixes_shared hfixed)
  · rw [hmask]
    exact fixes_all_or_none_of_partialMask hfixed
  · rw [hmask]
    exact .inr BitVec.and_zero

/-- Unless trees are split by bits of some candidates, a discriminator is fixed by **all**. -/
theorem fixes_mask_of_not_split {fixed : FixedBits} (hfixed : fixed ∈ candidates) :
    fixed.mask &&& mask false candidates free = mask false candidates free := by
  rcases mask_cases false candidates free with ⟨hmask, -⟩ | ⟨-, hsplit, -⟩ | ⟨-, -, hmask⟩
  · rw [hmask]
    exact fixes_shared hfixed
  · cases hsplit
  · rw [hmask]
    exact BitVec.and_zero

/-- Some candidate fixes the bits of a discriminator. -/
theorem exists_fixes_mask (hne : candidates ≠ []) (h : mask split candidates free ≠ 0) :
    ∃ fixed ∈ candidates,
      fixed.mask &&& mask split candidates free = mask split candidates free := by
  rcases mask_cases split candidates free with ⟨hmask, -⟩ | ⟨-, -, hmask⟩ | ⟨-, -, hmask⟩
  · obtain ⟨fixed, hfixed⟩ := List.exists_mem_of_ne_nil candidates hne
    rw [hmask]
    exact ⟨fixed, hfixed, fixes_shared hfixed⟩
  · cases hbest : bestBit? candidates free with
    | none => exact absurd (hmask.trans (partialMask_eq_zero.2 hbest)) h
    | some best =>
      obtain ⟨-, fixed, hfixed, hfixes⟩ := isUsable_of_bestBit? hbest
      refine ⟨fixed, hfixed, (fixes_all_or_none hfixed).resolve_right fun hnone => ?_⟩
      -- It fixes the best bit, so it does not fix none.
      rw [hmask, Code.and_eq_zero_iff] at hnone
      rw [hnone best (getLsbD_partialMask_best hbest)] at hfixes
      cases hfixes
  · exact absurd hmask h

/-- If trees may be split by the bits of some candidates and there is no discriminator, then **no
    free bit** is fixed. -/
theorem fixes_no_free_of_mask_eq_zero (h : mask true candidates free = 0) {fixed : FixedBits}
    (hfixed : fixed ∈ candidates) : fixed.mask &&& free = 0 := by
  rcases mask_cases true candidates free with ⟨hmask, hne⟩ | ⟨-, -, hmask⟩ | ⟨-, hsplit, -⟩
  · exact absurd (hmask.symm.trans h) hne
  · have hnone := bestBit?_eq_none.1 (partialMask_eq_zero.1 (hmask.symm.trans h))
    rw [Code.and_eq_zero_iff]
    intro i hi
    exact Bool.eq_false_iff.2 fun hfixes => hnone i ⟨hi, fixed, hfixed, hfixes⟩
  · cases hsplit

end Discriminator

end IsaCodec
