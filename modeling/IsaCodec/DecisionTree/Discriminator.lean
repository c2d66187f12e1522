import IsaCodec.FixedBits

/-! # Discriminators

    The discriminator of some candidates is the set of bits by which a
    decision tree tells them apart next.  Bits that all of them fix come
    first.  If there are none, and instructions may be told apart by bits
    that only some of them fix, the best such bit is taken together with all
    bits that the same candidates fix. -/

namespace IsaCodec.Discriminator

/-- The free bits that all candidates fix. -/
def shared (candidates : List FixedBits) (free : Code) : Code :=
  candidates.foldl (fun mask fixed => mask &&& fixed.mask) free

/-- Number of candidates that fix a bit to zero. -/
def zeros (candidates : List FixedBits) (bit : Nat) : Nat :=
  candidates.countP fun fixed => fixed.mask.getLsbD bit && !fixed.bits.getLsbD bit

/-- Number of candidates that fix a bit to one. -/
def ones (candidates : List FixedBits) (bit : Nat) : Nat :=
  candidates.countP fun fixed => fixed.mask.getLsbD bit && fixed.bits.getLsbD bit

/-- How well a bit tells the candidates apart: better if both values are
    taken often, and if many candidates fix it.  Scores are words of 64 bits;
    for millions of candidates they may wrap around, or are an error where
    overflow is checked. -/
def score (candidates : List FixedBits) (bit : Nat) : Nat :=
  let zeros := zeros candidates bit
  let ones := ones candidates bit
  (zeros * ones + 1) * (zeros + ones) % UInt64.size

/-- The first of the items with the highest score. -/
def firstBest? {α : Type} (score : α → Nat) : List α → Option α
  | [] => none
  | x :: xs =>
    match firstBest? score xs with
    | none => some x
    | some y => if score x < score y then some y else some x

/-- Bit positions from the most significant one down. -/
def positions : List Nat :=
  (List.range 64).reverse

/-- Which candidates fix a bit? -/
def fixedBy (candidates : List FixedBits) (bit : Nat) : List Bool :=
  candidates.map (·.mask.getLsbD bit)

/-- The free bit that tells the candidates apart best; the most significant
    one of several. -/
def bestBit? (candidates : List FixedBits) (free : Code) : Option Nat :=
  let fixedBySome := fun bit => free.getLsbD bit && (fixedBy candidates bit).contains true
  firstBest? (score candidates) (positions.filter fixedBySome)

/-- The free bits that are fixed by the same candidates as the best bit. -/
def partialMask (candidates : List FixedBits) (free : Code) : Code :=
  match bestBit? candidates free with
  | none => 0
  | some best =>
    let pattern := fixedBy candidates best
    Code.union ((positions.filter fun bit =>
      free.getLsbD bit && fixedBy candidates bit == pattern).map (BitVec.twoPow 64))

/-- The bits that tell the candidates apart next; none if there are no such bits. -/
def mask (split : Bool) (candidates : List FixedBits) (free : Code) : Code :=
  let shared := shared candidates free
  if shared ≠ 0 then shared
  else if split then partialMask candidates free
  else 0

/-! ## Discriminators consist of free bits -/

theorem getLsbD_shared (candidates : List FixedBits) (free : Code) (i : Nat) :
    (shared candidates free).getLsbD i =
      (free.getLsbD i && candidates.all (·.mask.getLsbD i)) := by
  unfold shared
  induction candidates generalizing free with
  | nil => simp
  | cons fixed candidates ih => simp [ih, Bool.and_assoc]

theorem getLsbD_partialMask {candidates : List FixedBits} {free : Code} {best : Nat}
    (h : bestBit? candidates free = some best) (i : Nat) :
    (partialMask candidates free).getLsbD i =
      (free.getLsbD i && fixedBy candidates i == fixedBy candidates best) := by
  rw [Bool.eq_iff_iff]
  simp only [partialMask, h, Code.getLsbD_union, List.any_map, List.any_filter, positions,
    List.any_eq_true, List.mem_reverse, List.mem_range, Function.comp_apply,
    BitVec.getLsbD_twoPow, Bool.and_eq_true, decide_eq_true_eq]
  constructor
  · rintro ⟨j, hj, hfree, hi, rfl⟩
    exact hfree
  · intro hfree
    have hi : i < 64 := BitVec.lt_of_getLsbD hfree.1
    exact ⟨i, hi, hfree, hi, rfl⟩

theorem free_of_mask {split : Bool} {candidates : List FixedBits} {free : Code} {i : Nat}
    (h : (mask split candidates free).getLsbD i) : free.getLsbD i := by
  simp only [mask] at h
  split at h
  · simp_all [getLsbD_shared]
  · split at h
    · cases hbest : bestBit? candidates free with
      | none => simp [partialMask, hbest] at h
      | some best => simp_all [getLsbD_partialMask hbest]
    · simp at h

/-- Without the bits of a discriminator fewer bits are free. -/
theorem toNat_and_not_mask_lt {split : Bool} {candidates : List FixedBits} {free : Code}
    (h : mask split candidates free ≠ 0) :
    (free &&& ~~~mask split candidates free).toNat < free.toNat := by
  have hsubset : free &&& mask split candidates free = mask split candidates free := by
    apply BitVec.eq_of_getLsbD_eq
    intro i _
    cases hi : (mask split candidates free).getLsbD i with
    | false => simp [hi]
    | true => simp [hi, free_of_mask hi]
  generalize mask split candidates free = m at *
  have hle : (free &&& ~~~m).toNat ≤ free.toNat := by
    rw [BitVec.toNat_and]; exact Nat.and_le_left
  refine Nat.lt_of_le_of_ne hle fun heq => h ?_
  rw [← hsubset, ← BitVec.eq_of_toNat_eq heq, BitVec.and_assoc]
  simp

end IsaCodec.Discriminator
