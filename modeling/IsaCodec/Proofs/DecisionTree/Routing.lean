import IsaCodec.DecisionTree.Build
import IsaCodec.DecisionTree.Lookup

/-! # Routing through decision trees

    A code that has the fixed bits of a candidate leads to the leaf of the
    candidate, whatever the tree looks at.  At a switch, a candidate that
    fixes all bits of the mask is below the case of its own bits, and these
    are the code's bits; any other candidate is below the branch for the
    others, and that branch is always taken.

    * **Soundness** — a lookup gives candidates only (`mem_of_mem_collect_build`).
    * **Completeness** — it gives all candidates whose fixed bits the code has
      (`mem_collect_build`).
    * **Independence** — so what is left of a lookup after the fixed-bit test
      does not depend on the tree (`mem_candidates_build`). -/

namespace IsaCodec

/-! ## Partitions -/

namespace Partition

variable {fixed : Nat → FixedBits} {mask : Code} {candidates : List Nat}

theorem connected_code : Ascending.Connected Code :=
  fun _ _ hxy hyx => BitVec.le_antisymm (BitVec.not_lt.1 hyx) (BitVec.not_lt.1 hxy)

/-- There is a case for each value to which some candidate fixes the bits, and
    it holds the candidates that do so. -/
theorem mem_cases_ofMask {key : Code} {list : List Nat} :
    (key, list) ∈ (ofMask fixed mask candidates).cases ↔
      (∃ i ∈ candidates, (fixed i).mask &&& mask = mask ∧ (fixed i).bits &&& mask = key) ∧
        list = candidates.filter fun i =>
          (fixed i).mask &&& mask == mask && (fixed i).bits &&& mask == key := by
  simp only [ofMask, List.mem_map, Prod.mk.injEq, Ascending.mem_ofList connected_code,
    List.mem_filter, List.filter_filter, beq_iff_eq]
  constructor
  · intro h
    obtain ⟨k, ⟨i, ⟨hi, hmask⟩, hbits⟩, rfl, rfl⟩ := h
    refine ⟨⟨i, hi, hmask, hbits⟩, ?_⟩
    simp only [Bool.and_comm]
  · intro h
    obtain ⟨⟨i, hi, hmask, hbits⟩, rfl⟩ := h
    refine ⟨key, ⟨i, ⟨hi, hmask⟩, hbits⟩, rfl, ?_⟩
    simp only [Bool.and_comm]

theorem mem_others_ofMask {i : Nat} :
    i ∈ (ofMask fixed mask candidates).others ↔
      i ∈ candidates ∧ (fixed i).mask &&& mask ≠ mask := by
  simp [ofMask]

end Partition

/-! ## Branches -/

namespace Branches

variable {build : Nat → List Nat → Node} {code key : Code} {i : Nat} {others : List Nat}

/-- What a lookup finds is below the branch for the others or below the case of the key. -/
theorem mem_of_mem_collect_ofPartition {cases : List (Code × List Nat)} {start : Nat}
    (h : i ∈ (ofPartition build start others cases).collect code key) :
    (∃ start', i ∈ (build start' others).collect code) ∨
      ∃ list, (key, list) ∈ cases ∧ ∃ start', i ∈ (build start' list).collect code := by
  induction cases generalizing start with
  | nil =>
    unfold ofPartition at h
    split at h
    · simp [collect] at h
    · exact .inl ⟨start, h⟩
  | cons first rest ih =>
    simp only [ofPartition, collect, List.mem_append] at h
    rcases h with hfirst | hrest
    · by_cases hkey : first.1 = key
      · rw [if_pos hkey] at hfirst
        exact .inr ⟨first.2, by simp [← hkey], start, hfirst⟩
      · simp [hkey] at hfirst
    · rcases ih hrest with hothers | ⟨list, hlist, hchild⟩
      · exact .inl hothers
      · exact .inr ⟨list, List.mem_cons_of_mem first hlist, hchild⟩

/-- A lookup finds what is below the branch for the others. -/
theorem mem_collect_ofPartition_others {cases : List (Code × List Nat)} {start : Nat}
    (hothers : others ≠ []) (h : ∀ start', i ∈ (build start' others).collect code) :
    i ∈ (ofPartition build start others cases).collect code key := by
  induction cases generalizing start with
  | nil =>
    have hempty : others.isEmpty = false := by simpa using hothers
    simpa [ofPartition, hempty, collect] using h start
  | cons first rest ih =>
    simp only [ofPartition, collect, List.mem_append]
    exact .inr ih

/-- A lookup finds what is below the case of the key. -/
theorem mem_collect_ofPartition_case {cases : List (Code × List Nat)} {start : Nat}
    {list : List Nat} (hlist : (key, list) ∈ cases)
    (h : ∀ start', i ∈ (build start' list).collect code) :
    i ∈ (ofPartition build start others cases).collect code key := by
  induction cases generalizing start with
  | nil => simp at hlist
  | cons first rest ih =>
    simp only [ofPartition, collect, List.mem_append]
    rcases List.mem_cons.1 hlist with rfl | hrest
    · exact .inl (by simpa using h start)
    · exact .inr (ih hrest)

end Branches

/-! ## Built trees -/

namespace Node

variable {fixed : Nat → FixedBits} {split : Bool}

/-- Induction over the building of a tree.  A leaf is built for at most one candidate or if the
    free bits do not tell the candidates apart; the children of a switch are built with fewer
    free bits. -/
theorem build_induction {motive : Code → List Nat → Node → Prop}
    (leaf : ∀ free start candidates,
      candidates.length ≤ 1 ∨ Discriminator.mask split (candidates.map fixed) free = 0 →
        motive free candidates (.leaf start candidates))
    (switch : ∀ free start candidates,
      let mask := Discriminator.mask split (candidates.map fixed) free
      let parts := Partition.ofMask fixed mask candidates
      let child := build fixed split (free &&& ~~~mask)
      1 < candidates.length → mask ≠ 0 →
        (∀ start' candidates',
          motive (free &&& ~~~mask) candidates' (child start' candidates')) →
        motive free candidates
          (.switch start mask (.ofPartition child (start + 1) parts.others parts.cases) []))
    (free : Code) (start : Nat) (candidates : List Nat) :
    motive free candidates (build fixed split free start candidates) := by
  -- The mask of a switch takes at least one bit from those that are free below it.
  induction hn : free.toNat using Nat.strongRecOn generalizing free start candidates with
  | ind n ih =>
    subst hn
    unfold build
    split
    · next hlength => exact leaf free start candidates (.inl hlength)
    · next hlength =>
      by_cases hmask : Discriminator.mask split (candidates.map fixed) free = 0
      · simp only [hmask, dif_pos]
        exact leaf free start candidates (.inr hmask)
      · simp only [hmask, dif_neg, not_false_iff]
        have hfewer := Discriminator.toNat_and_not_mask_lt hmask
        exact switch free start candidates (Nat.lt_of_not_le hlength) hmask
          fun start' candidates' => ih _ hfewer _ start' candidates' rfl

/-- A lookup gives candidates only. -/
theorem mem_of_mem_collect_build {free code : Code} {start i : Nat} {candidates : List Nat}
    (h : i ∈ (build fixed split free start candidates).collect code) : i ∈ candidates := by
  refine build_induction (motive := fun _ candidates node =>
    i ∈ node.collect code → i ∈ candidates) ?_ ?_ free start candidates h
  · intro free start candidates _ hi
    exact hi
  · intro free start candidates mask parts child _ _ ih hi
    rcases Branches.mem_of_mem_collect_ofPartition hi with
      ⟨start', hchild⟩ | ⟨list, hlist, start', hchild⟩
    · have hothers : i ∈ parts.others := ih start' parts.others hchild
      exact (Partition.mem_others_ofMask.1 hothers).1
    · have hcase : i ∈ list := ih start' list hchild
      rw [(Partition.mem_cases_ofMask.1 hlist).2] at hcase
      exact (List.mem_filter.1 hcase).1

/-- A lookup gives every candidate whose fixed bits the code has. -/
theorem mem_collect_build {free code : Code} {start i : Nat} {candidates : List Nat}
    (hi : i ∈ candidates) (hmatch : (fixed i).isMatch code) :
    i ∈ (build fixed split free start candidates).collect code := by
  refine build_induction (motive := fun _ candidates node =>
    i ∈ candidates → i ∈ node.collect code) ?_ ?_ free start candidates hi
  · intro free start candidates _ hi
    exact hi
  · intro free start candidates mask parts child _ _ ih hi
    have hbits : code &&& (fixed i).mask = (fixed i).bits := by
      simpa [FixedBits.isMatch] using hmatch
    by_cases hfixes : (fixed i).mask &&& mask = mask
    · -- The key of the code is the value to which the candidate fixes the mask.
      have hkey : (fixed i).bits &&& mask = code &&& mask := by
        rw [← hbits, BitVec.and_assoc, hfixes]
      have hcase := Partition.mem_cases_ofMask.2
        ⟨⟨i, hi, hfixes, hkey⟩, rfl⟩
      refine Branches.mem_collect_ofPartition_case hcase fun start' => ih start' _ ?_
      simp [hi, hfixes, hkey]
    · -- The branch for the others is taken with every key.
      have hothers : i ∈ parts.others := Partition.mem_others_ofMask.2 ⟨hi, hfixes⟩
      exact Branches.mem_collect_ofPartition_others (List.ne_nil_of_mem hothers)
        fun start' => ih start' _ hothers

end Node

/-! ## Lookups -/

namespace DecisionTree

private theorem connected_nat : Ascending.Connected Nat :=
  fun _ _ hxy hyx => Nat.le_antisymm (Nat.not_lt.1 hyx) (Nat.not_lt.1 hxy)

theorem pairwise_ofList (indices : List Nat) : (Ascending.ofList indices).Pairwise (· < ·) :=
  Ascending.pairwise_ofList Nat.lt_trans connected_nat indices

theorem mem_ofList {indices : List Nat} {i : Nat} : i ∈ Ascending.ofList indices ↔ i ∈ indices :=
  Ascending.mem_ofList connected_nat

theorem pairwise_candidates (tree : DecisionTree) (code : Code) :
    (tree.candidates code).Pairwise (· < ·) :=
  pairwise_ofList _

/-- Whatever the tree looks at, an instruction whose fixed bits match is a candidate exactly if
    it is one of the tree's instructions. -/
theorem mem_candidates_build {form : Form} {fixed : Nat → FixedBits} {split : Bool}
    {indices : List Nat} {code : Code} {i : Nat}
    (hmatch : (fixed i).isMatch (code &&& form.codeMask)) :
    i ∈ (build form fixed split indices).candidates code ↔ i ∈ indices := by
  rw [candidates, mem_ofList]
  constructor
  · intro hi
    exact Node.mem_of_mem_collect_build hi
  · intro hi
    exact Node.mem_collect_build hi hmatch

end DecisionTree

end IsaCodec
