import IsaCodec.Proofs.DecisionTree.Discriminators
import IsaCodec.Proofs.DecisionTree.Nodes

/-! # What a decision tree represents

    A tree over some instructions represents the list of their indices: its
    leaves list them, each as often as it was given.  Each switch looks at
    bits of the form that no switch above it has looked at, and what is below
    one of its branches agrees with the branch.

    The first node of a built tree is such a switch or a leaf, by the
    properties of partitions and discriminators (`isSwitch_build`).  Since
    every node was built, from bits that are free and candidates that are
    left, the same holds at every node (`represents_build`). -/

namespace IsaCodec

open scoped List

/-! ## Trees -/

/-- A switch looks at some of the free bits and divides the instructions below it by them. -/
structure Branches.IsSwitch (fixed : Nat → FixedBits) (split : Bool) (free mask : Code)
    (branches : Branches) : Prop where
  mask_ne_zero : mask ≠ 0
  mask_free : mask &&& free = mask
  cases_ne_nil : branches.cases ≠ []
  /-- The cases are in order of their keys, so no two have the same key. -/
  ascending : (branches.cases.map Prod.fst).Pairwise (· < ·)
  /-- Below a case, the instructions fix all bits of the mask, to the key. -/
  fixes_key : ∀ key child, (key, child) ∈ branches.cases → ∀ i ∈ child.listed,
    (fixed i).mask &&& mask = mask ∧ (fixed i).bits &&& mask = key
  /-- Below the branch for the others, which is there only if trees are split by bits of some
      instructions, they fix none of the bits. -/
  fixes_none : ∀ child, branches.others? = some child →
    split = true ∧ ∀ i ∈ child.listed, (fixed i).mask &&& mask = 0
  /-- The bits are not looked at again below. -/
  disjoint : ∀ child ∈ branches.children, ∀ node ∈ child.allNodes, node.mask &&& mask = 0

/-- A tree represents a list of indices. -/
structure DecisionTree.Represents (tree : DecisionTree) (fixed : Nat → FixedBits) (split : Bool)
    (indices : List Nat) : Prop where
  /-- The leaves together list the indices. -/
  listed : tree.root.listed ~ indices
  /-- Only leaves list any. -/
  inner : ∀ node ∈ tree.allNodes, node.isLeaf = false → node.instructions = []
  /-- No leaf is empty, unless there is no index at all. -/
  leaf : ∀ leaf ∈ tree.root.leaves, leaf.instructions = [] → indices = []
  switch : ∀ number mask branches instructions,
    .switch number mask branches instructions ∈ tree.allNodes →
      branches.IsSwitch fixed split tree.form.codeMask mask

namespace Node

variable {fixed : Nat → FixedBits} {split : Bool}

/-- Candidates that cannot be told apart make a leaf. -/
theorem build_eq_leaf {free : Code} {candidates : List Nat} (start : Nat)
    (h : candidates.length ≤ 1 ∨ Discriminator.mask split (candidates.map fixed) free = 0) :
    build fixed split free start candidates = .leaf start candidates := by
  unfold build
  by_cases hlength : candidates.length ≤ 1
  · rw [if_pos hlength]
  · rw [if_neg hlength]
    exact dif_pos (h.resolve_left hlength)

/-- Other candidates make a switch on their discriminator. -/
theorem build_eq_switch {free : Code} {candidates : List Nat} (start : Nat)
    (hlength : 1 < candidates.length)
    (hmask : Discriminator.mask split (candidates.map fixed) free ≠ 0) :
    let mask := Discriminator.mask split (candidates.map fixed) free
    let parts := Partition.ofMask fixed mask candidates
    build fixed split free start candidates =
      .switch start mask (.ofPartition (build fixed split (free &&& ~~~mask)) (start + 1)
        parts.others parts.cases) [] := by
  unfold build
  rw [if_neg (Nat.not_le.2 hlength)]
  exact dif_neg hmask

/-- A node is built as a leaf with all the candidates, or as a switch with a discriminator. -/
theorem build_cases (free : Code) (start : Nat) (candidates : List Nat) :
    (build fixed split free start candidates = .leaf start candidates ∧
      (candidates.length ≤ 1 ∨
        Discriminator.mask split (candidates.map fixed) free = 0)) ∨
    let mask := Discriminator.mask split (candidates.map fixed) free
    let parts := Partition.ofMask fixed mask candidates
    1 < candidates.length ∧ mask ≠ 0 ∧
      build fixed split free start candidates =
        .switch start mask (.ofPartition (build fixed split (free &&& ~~~mask)) (start + 1)
          parts.others parts.cases) [] := by
  by_cases h : candidates.length ≤ 1 ∨
      Discriminator.mask split (candidates.map fixed) free = 0
  · exact .inl ⟨build_eq_leaf start h, h⟩
  · obtain ⟨hlength, hmask⟩ := not_or.1 h
    have hlength := Nat.lt_of_not_le hlength
    exact .inr ⟨hlength, hmask, build_eq_switch start hlength hmask⟩

/-- A node looks at free bits only. -/
theorem mask_build_and_free (free : Code) (start : Nat) (candidates : List Nat) :
    (build fixed split free start candidates).mask &&& free =
      (build fixed split free start candidates).mask := by
  rcases build_cases free start candidates with ⟨hleaf, -⟩ | ⟨-, -, hswitch⟩
  · rw [hleaf]
    exact BitVec.zero_and
  · rw [hswitch]
    exact Discriminator.mask_and_free

/-- So do the nodes below it. -/
theorem mask_and_free_of_mem_allNodes {free : Code} {start : Nat} {candidates : List Nat}
    {node : Node} (h : node ∈ (build fixed split free start candidates).allNodes) :
    node.mask &&& free = node.mask := by
  obtain ⟨free', start', candidates', hfree, rfl⟩ := exists_build_and_free h
  rw [← mask_build_and_free free' start' candidates', BitVec.and_assoc, hfree]

/-- The candidates that a discriminator sends to the branch for the others fix none of its bits. -/
theorem fixes_none_of_mem_others {free : Code} {candidates : List Nat} {i : Nat} :
    let mask := Discriminator.mask split (candidates.map fixed) free
    i ∈ (Partition.ofMask fixed mask candidates).others →
      split = true ∧ (fixed i).mask &&& mask = 0 := by
  intro mask hi
  obtain ⟨hcandidate, hfixes⟩ := Partition.mem_others_ofMask.1 hi
  have hmem : fixed i ∈ candidates.map fixed := List.mem_map_of_mem hcandidate
  refine ⟨?_, (Discriminator.fixes_all_or_none hmem).resolve_left hfixes⟩
  by_contra hsplit
  obtain rfl : split = false := Bool.eq_false_iff.2 hsplit
  exact hfixes (Discriminator.fixes_mask_of_not_split hmem)

/-- Only a leaf is built with instructions. -/
theorem instructions_build_of_not_isLeaf {free : Code} {start : Nat} {candidates : List Nat}
    (h : (build fixed split free start candidates).isLeaf = false) :
    (build fixed split free start candidates).instructions = [] := by
  rcases build_cases free start candidates with ⟨hleaf, -⟩ | ⟨-, -, hswitch⟩
  · rw [hleaf] at h
    cases h
  · rw [hswitch]
    rfl

/-- **The first node** of a built tree, if it is a switch. -/
theorem isSwitch_build {free : Code} {start number : Nat} {candidates : List Nat} {mask : Code}
    {branches : Branches} {instructions : List Nat}
    (h : build fixed split free start candidates = .switch number mask branches instructions) :
    branches.IsSwitch fixed split free mask := by
  rcases build_cases free start candidates with ⟨hleaf, -⟩ | ⟨hlength, hmask, hswitch⟩
  · rw [hleaf] at h
    cases h
  rw [hswitch] at h
  obtain ⟨-, rfl, rfl, -⟩ := Node.switch.inj h
  refine ⟨hmask, Discriminator.mask_and_free, ?_, ?_, ?_, ?_, ?_⟩
  · have hne : candidates.map fixed ≠ [] :=
      List.ne_nil_of_length_pos (by rw [List.length_map]; omega)
    obtain ⟨bits, hbits, hfixes⟩ := Discriminator.exists_fixes_mask hne hmask
    obtain ⟨i, hi, rfl⟩ := List.mem_map.1 hbits
    intro hnil
    apply Partition.cases_ofMask_ne_nil hi hfixes
    rw [← List.map_eq_nil_iff, ← Branches.map_fst_cases_ofPartition, hnil, List.map_nil]
  · rw [Branches.map_fst_cases_ofPartition]
    exact Partition.pairwise_keys_ofMask
  · intro key child hchild i hi
    obtain ⟨list, hlist, start', rfl⟩ := Branches.exists_of_mem_cases_ofPartition hchild
    exact (Partition.of_mem_case hlist (mem_listed_build.1 hi)).2
  · intro child hchild
    obtain ⟨hothers, start', rfl⟩ := Branches.exists_of_others?_ofPartition hchild
    obtain ⟨first, hfirst⟩ := List.exists_mem_of_ne_nil _ hothers
    refine ⟨(fixes_none_of_mem_others hfirst).1, fun i hi => ?_⟩
    exact (fixes_none_of_mem_others (mem_listed_build.1 hi)).2
  · intro child hchild node hnode
    obtain ⟨list, -, start', rfl⟩ := Branches.exists_of_mem_children_ofPartition hchild
    -- The bits of the mask are not free below the switch.
    rw [← mask_and_free_of_mem_allNodes hnode, BitVec.and_assoc, BitVec.and_assoc,
      BitVec.not_and_self]
    simp

end Node

namespace DecisionTree

variable {fixed : Nat → FixedBits} {split : Bool}

/-- A built tree **represents** the indices from which it was built. -/
theorem represents_build (form : Form) (indices : List Nat) :
    (build form fixed split indices).Represents fixed split indices where
  listed := Node.perm_listed_build _ _ _
  inner node hnode hinner := by
    obtain ⟨free, start, candidates, -, rfl⟩ := Node.exists_build_and_free hnode
    exact Node.instructions_build_of_not_isLeaf hinner
  leaf node hnode hempty := by
    obtain ⟨hnode, hleaf⟩ := List.mem_filter.1 hnode
    -- Each case has a candidate, and there is a branch for others only if there are some.
    obtain ⟨free, start, candidates, hne, rfl⟩ := Node.exists_build_of_mem_allNodes
      (motive := fun _ candidates => candidates = [] → indices = [])
      (fun _ _ _ _ => ⟨fun _ _ hlist hnil =>
          absurd hnil (Partition.ne_nil_of_mem_cases_ofMask hlist),
        fun hothers hnil => absurd hnil hothers⟩)
      id hnode
    rcases Node.build_cases free start candidates with ⟨hbuilt, -⟩ | ⟨-, -, hbuilt⟩
    · rw [hbuilt] at hempty
      exact hne hempty
    · rw [hbuilt] at hleaf
      cases hleaf
  switch number mask branches instructions hnode := by
    obtain ⟨free, start, candidates, hfree, hbuilt⟩ := Node.exists_build_and_free hnode
    have hswitch := Node.isSwitch_build hbuilt.symm
    refine { hswitch with mask_free := ?_ }
    show mask &&& form.codeMask = mask
    rw [← hswitch.mask_free, BitVec.and_assoc, hfree]

end DecisionTree

end IsaCodec
