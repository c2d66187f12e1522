import IsaCodec.Instruction.Compile
import IsaCodec.Proofs.DecisionTree.Representation
import IsaCodec.Proofs.Outcome
import IsaCodec.Sample
import Mathlib.Data.Finset.Card

/-! # Size of built trees

    A switch that has a single child looks at all bits that its candidates
    share.  So below it no bit is shared any more: the child is a leaf, or a
    switch on bits that some candidates fix and others do not, which has two
    children at least (`two_le_length_children`).

    With `n` candidates at the top, the number of nodes is bounded by
    `3 * n - 2`: a switch with `k` children, among which the candidates are
    divided, has at most `3 * n - 2 * k` nodes below it, and a switch with a
    single child is followed by one with more (`size_build_le`).  On the way
    down, each switch looks at bits of the form that no switch above it has
    looked at, so there are no more switches than bits
    (`countP_isLeaf_le`). -/

namespace IsaCodec

open scoped List

/-! ## Bits that are left -/

namespace Code

/-- The positions of the bits that are set. -/
def positions (word : Code) : Finset Nat :=
  (Finset.range 64).filter fun i => word.getLsbD i

theorem mem_positions {word : Code} {i : Nat} : i ∈ word.positions ↔ word.getLsbD i := by
  rw [positions, Finset.mem_filter, Finset.mem_range]
  exact ⟨fun h => h.2, fun h => ⟨BitVec.lt_of_getLsbD h, h⟩⟩

theorem card_positions_lowMask (len : Nat) : (lowMask len).positions.card = min len 64 := by
  have hrange : (lowMask len).positions = Finset.range (min len 64) := by
    ext i
    rw [mem_positions, getLsbD_lowMask, decide_eq_true_eq, Finset.mem_range, Nat.lt_min]
  rw [hrange, Finset.card_range]

theorem exists_getLsbD_of_ne_zero {word : Code} (h : word ≠ 0) : ∃ i, word.getLsbD i := by
  by_contra hnone
  refine h (BitVec.eq_of_getLsbD_eq fun i _ => ?_)
  rw [Bool.eq_false_iff.2 fun hi => hnone ⟨i, hi⟩]
  exact BitVec.getLsbD_zero.symm

/-- There are fewer positions left without the bits of a mask. -/
theorem card_positions_lt {free mask : Code} (hmask : mask ≠ 0) (hfree : mask &&& free = mask) :
    (free &&& ~~~mask).positions.card < free.positions.card := by
  obtain ⟨i, hi⟩ := exists_getLsbD_of_ne_zero hmask
  have hifree : free.getLsbD i := by
    rw [← hfree, BitVec.getLsbD_and, Bool.and_eq_true] at hi
    exact hi.2
  have hsubset : (free &&& ~~~mask).positions ⊆ free.positions := by
    intro j hj
    rw [mem_positions, BitVec.getLsbD_and, Bool.and_eq_true] at hj
    exact mem_positions.2 hj.1
  apply Finset.card_lt_card
  rw [Finset.ssubset_iff_of_subset hsubset]
  refine ⟨i, mem_positions.2 hifree, ?_⟩
  rw [mem_positions, BitVec.getLsbD_and, BitVec.getLsbD_not, hi]
  simp

end Code

/-! ## Single children -/

namespace Discriminator

variable {candidates : List FixedBits} {free : Code} {split : Bool}

/-- A discriminator that all candidates fix is the mask of the bits that they share. -/
theorem shared_ne_zero_of_fixes_mask (h : mask split candidates free ≠ 0)
    (hfixes : ∀ fixed ∈ candidates,
      fixed.mask &&& mask split candidates free = mask split candidates free) :
    shared candidates free ≠ 0 := by
  obtain ⟨i, hi⟩ := Code.exists_getLsbD_of_ne_zero h
  have hshared : (shared candidates free).getLsbD i := by
    rw [getLsbD_shared, Bool.and_eq_true, List.all_eq_true]
    exact ⟨free_of_mask hi, fun fixed hfixed => Code.and_eq_right_iff.1 (hfixes fixed hfixed) i hi⟩
  intro hzero
  rw [hzero] at hshared
  cases hshared.symm.trans BitVec.getLsbD_zero

/-- Without the bits that the candidates share they share no bit. -/
theorem shared_and_not_shared {others : List FixedBits} (hperm : others ~ candidates) :
    shared others (free &&& ~~~shared candidates free) = 0 := by
  apply BitVec.eq_of_getLsbD_eq
  intro i _
  rw [getLsbD_shared, BitVec.getLsbD_and, BitVec.getLsbD_not, getLsbD_shared, hperm.all_eq]
  cases free.getLsbD i <;> simp

end Discriminator

namespace Branches

variable {build : Nat → List Nat → Node} {cases : List (Code × List Nat)}

/-- Each case has a child, and the others have one if there are any. -/
theorem length_children_ofPartition {start : Nat} {others : List Nat} :
    (ofPartition build start others cases).children.length =
      cases.length + if others = [] then 0 else 1 := by
  induction cases generalizing start with
  | nil =>
    unfold ofPartition
    split
    · next h => rw [List.isEmpty_iff.1 h, if_pos rfl]; rfl
    · next h => rw [if_neg (by simpa using h)]; rfl
  | cons first rest ih =>
    rw [ofPartition, children, List.length_cons, ih, List.length_cons]
    omega

/-- A bound on the nodes of the children, among which candidates are divided. -/
theorem size_ofPartition_le (start : Nat) (others : List Nat)
    (h : ∀ start' list, list ≠ [] → (build start' list).size + 2 ≤ 3 * list.length)
    (hcases : ∀ key list, (key, list) ∈ cases → list ≠ []) :
    (ofPartition build start others cases).size +
        2 * (ofPartition build start others cases).children.length ≤
      3 * (cases.flatMap Prod.snd ++ others).length := by
  induction cases generalizing start with
  | nil =>
    unfold ofPartition
    split
    · exact Nat.zero_le _
    · next hothers =>
      have hne : others ≠ [] := by simpa using hothers
      simpa [size, children] using h start others hne
  | cons first rest ih =>
    have hfirst := h start first.2 (hcases first.1 first.2 List.mem_cons_self)
    have hrest := ih (start + (build start first.2).size)
      fun key list hmem => hcases key list (List.mem_cons_of_mem first hmem)
    rw [ofPartition, size, children, List.length_cons, List.flatMap_cons, List.append_assoc,
      List.length_append]
    omega

end Branches

namespace Partition

variable {fixed : Nat → FixedBits} {split : Bool} {free : Code} {candidates : List Nat}

/-- Candidates that share no bit are divided: some fix the bits of the discriminator and
    some do not. -/
theorem two_le_of_shared_eq_zero (hne : candidates ≠ [])
    (hshared : Discriminator.shared (candidates.map fixed) free = 0) :
    let mask := Discriminator.mask split (candidates.map fixed) free
    let parts := ofMask fixed mask candidates
    mask ≠ 0 → parts.cases ≠ [] ∧ parts.others ≠ [] := by
  intro mask parts hmask
  constructor
  · have hne : candidates.map fixed ≠ [] := by simpa using hne
    obtain ⟨bits, hbits, hfixes⟩ := Discriminator.exists_fixes_mask hne hmask
    obtain ⟨i, hi, rfl⟩ := List.mem_map.1 hbits
    exact cases_ofMask_ne_nil hi hfixes
  · intro hothers
    refine Discriminator.shared_ne_zero_of_fixes_mask hmask (fun bits hbits => ?_) hshared
    obtain ⟨i, hi, rfl⟩ := List.mem_map.1 hbits
    by_contra hfixes
    have hmem : i ∈ parts.others := mem_others_ofMask.2 ⟨hi, hfixes⟩
    rw [hothers] at hmem
    cases hmem

end Partition

namespace Node

variable {fixed : Nat → FixedBits} {split : Bool}

/-- A switch for candidates that share no bit has **two children** at least. -/
theorem two_le_length_children {free : Code} (start : Nat) {candidates : List Nat}
    (hlength : 1 < candidates.length)
    (hmask : Discriminator.mask split (candidates.map fixed) free ≠ 0)
    (hshared : Discriminator.shared (candidates.map fixed) free = 0) :
    2 ≤ (build fixed split free start candidates).branches.children.length := by
  have hne : candidates ≠ [] := List.ne_nil_of_length_pos (by omega)
  obtain ⟨hcases, hothers⟩ := Partition.two_le_of_shared_eq_zero hne hshared hmask
  rw [build_eq_switch start hlength hmask, branches, Branches.length_children_ofPartition,
    if_neg hothers]
  have := List.length_pos_of_ne_nil hcases
  omega

/-- A **single child** is built for the same candidates, which share no bit any more. -/
theorem exists_build_of_length_children {free : Code} {start : Nat} {candidates : List Nat}
    (h : (build fixed split free start candidates).branches.children.length = 1) :
    let free' := free &&& ~~~Discriminator.mask split (candidates.map fixed) free
    1 < candidates.length ∧ ∃ start' candidates',
      (build fixed split free start candidates).branches.children =
        [build fixed split free' start' candidates'] ∧
      candidates' ~ candidates ∧ Discriminator.shared (candidates'.map fixed) free' = 0 := by
  rcases build_cases free start candidates with ⟨hleaf, -⟩ | ⟨hlength, hmask, hbuilt⟩
  · rw [hleaf] at h
    cases h
  have hshared : Discriminator.shared (candidates.map fixed) free ≠ 0 := by
    intro hshared
    have := two_le_length_children start hlength hmask hshared
    omega
  -- All candidates fix the bits of the mask, so there are no others, and one case has them all.
  obtain ⟨hmask, -⟩ := (Discriminator.mask_cases split (candidates.map fixed) free).resolve_right
    fun hnone => hshared (hnone.elim And.left And.left)
  rw [hmask] at hbuilt
  have hothers : (Partition.ofMask fixed (Discriminator.shared (candidates.map fixed) free)
      candidates).others = [] := by
    refine List.eq_nil_iff_forall_not_mem.2 fun i hi => ?_
    obtain ⟨hi, hfixes⟩ := Partition.mem_others_ofMask.1 hi
    exact hfixes (Discriminator.fixes_shared (List.mem_map_of_mem hi))
  have hperm : ((Partition.ofMask fixed (Discriminator.shared (candidates.map fixed) free)
      candidates).cases.flatMap Prod.snd) ++ _ ~ candidates := Partition.perm_ofMask
  generalize Partition.ofMask fixed _ candidates = parts at hbuilt hothers hperm
  rw [hbuilt, branches, Branches.length_children_ofPartition, hothers, if_pos rfl] at h
  obtain ⟨⟨key, list⟩, hcases⟩ := List.length_eq_one_iff.1 h
  rw [hcases, hothers, List.append_nil, List.flatMap_singleton] at hperm
  rw [hmask]
  refine ⟨hlength, start + 1, list, ?_, hperm,
    Discriminator.shared_and_not_shared (hperm.map fixed)⟩
  rw [hbuilt, hcases, hothers]
  rfl

/-! ## Nodes -/

theorem length_traverse (nodes : List Node) : (traverse nodes).length = totalSize nodes := by
  induction nodes using traverse.induct with
  | case1 => rw [traverse, List.length_nil, totalSize_nil]
  | case2 node stack ih =>
    rw [traverse, List.length_cons, ih, totalSize_append, totalSize_cons, size_eq_totalSize]
    omega

theorem length_allNodes (node : Node) : node.allNodes.length = node.size := by
  rw [allNodes, length_traverse, totalSize_cons, totalSize_nil, Nat.add_zero]

/-- The nodes of a switch, if its children are as small as they should be. -/
theorem size_build_add_le {free : Code} (start : Nat) {candidates : List Nat}
    (hlength : 1 < candidates.length)
    (hmask : Discriminator.mask split (candidates.map fixed) free ≠ 0)
    (h : ∀ start' list, list ≠ [] →
      (build fixed split (free &&& ~~~Discriminator.mask split (candidates.map fixed) free)
        start' list).size + 2 ≤ 3 * list.length) :
    (build fixed split free start candidates).size +
        2 * (build fixed split free start candidates).branches.children.length ≤
      3 * candidates.length + 1 := by
  let parts := Partition.ofMask fixed (Discriminator.mask split (candidates.map fixed) free)
    candidates
  have hparts : (parts.cases.flatMap Prod.snd ++ parts.others).length = candidates.length :=
    Partition.perm_ofMask.length_eq
  have hbelow := Branches.size_ofPartition_le (start + 1) parts.others h
    fun key list (hlist : (key, list) ∈ parts.cases) => Partition.ne_nil_of_mem_cases_ofMask hlist
  rw [hparts] at hbelow
  rw [build_eq_switch start hlength hmask, size, branches, Nat.add_right_comm]
  exact Nat.succ_le_succ hbelow

/-- A built tree has at most `3 * n - 2` **nodes**, and one less if the candidates share no bit. -/
theorem size_build_le (free : Code) (start : Nat) {candidates : List Nat} (hne : candidates ≠ []) :
    (build fixed split free start candidates).size + 2 ≤ 3 * candidates.length ∧
      (Discriminator.shared (candidates.map fixed) free = 0 → 1 < candidates.length →
        (build fixed split free start candidates).size + 3 ≤ 3 * candidates.length) := by
  induction hn : free.toNat using Nat.strongRecOn generalizing free start candidates with
  | ind n ih =>
    subst hn
    have hpos := List.length_pos_of_ne_nil hne
    rcases build_cases free start candidates with ⟨hleaf, -⟩ | ⟨hlength, hmask, hbuilt⟩
    · rw [hleaf, size]
      omega
    have hfewer := Discriminator.toNat_and_not_mask_lt hmask
    have hbelow := fun start' list (hlist : list ≠ []) => ih _ hfewer _ start' hlist rfl
    have hsize := size_build_add_le start hlength hmask
      fun start' list hlist => (hbelow start' list hlist).1
    by_cases hshared : Discriminator.shared (candidates.map fixed) free = 0
    · have hchildren := two_le_length_children start hlength hmask hshared
      omega
    · refine ⟨?_, fun h => absurd h hshared⟩
      by_cases hsingle : (build fixed split free start candidates).branches.children.length = 1
      · -- The bound of the single child is better by one, which makes up for the switch itself.
        obtain ⟨-, start', list, hchildren, hperm, hnone⟩ := exists_build_of_length_children hsingle
        rw [← hperm.length_eq] at hlength hpos ⊢
        have hchild := (hbelow start' list (List.ne_nil_of_length_pos hpos)).2 hnone hlength
        rw [size_eq_totalSize, hchildren, totalSize_cons, totalSize_nil]
        omega
      · by_cases hnil : (build fixed split free start candidates).branches.children = []
        · rw [size_eq_totalSize, hnil, totalSize_nil]
          omega
        · have := List.length_pos_of_ne_nil hnil
          omega

/-! ## Switches on a way down -/

/-- Does a node follow another one on a way down the tree? -/
def IsChild (node child : Node) : Prop :=
  child ∈ node.branches.children

/-- What follows is built without the bits of a switch. -/
theorem exists_build_of_isChild {free : Code} {start : Nat} {candidates : List Nat} {child : Node}
    (h : (build fixed split free start candidates).IsChild child) :
    let mask := Discriminator.mask split (candidates.map fixed) free
    mask ≠ 0 ∧ ∃ start' list, child = build fixed split (free &&& ~~~mask) start' list := by
  rcases build_cases free start candidates with ⟨hleaf, -⟩ | ⟨-, hmask, hbuilt⟩
  · rw [hleaf] at h
    cases h
  · rw [hbuilt] at h
    obtain ⟨list, -, start', hchild⟩ := Branches.exists_of_mem_children_ofPartition h
    exact ⟨hmask, start', list, hchild⟩

/-- On a way down a built tree there are no more **switches** than free bits. -/
theorem countP_isLeaf_le {free : Code} {start : Nat} {candidates : List Nat} {way : List Node}
    (h : List.IsChain IsChild (build fixed split free start candidates :: way)) :
    (build fixed split free start candidates :: way).countP (!·.isLeaf) ≤
      free.positions.card := by
  induction way generalizing free start candidates with
  | nil =>
    rcases build_cases free start candidates with ⟨hleaf, -⟩ | ⟨-, hmask, hbuilt⟩
    · rw [hleaf]
      exact Nat.zero_le _
    · rw [hbuilt]
      exact Nat.zero_lt_of_lt (Code.card_positions_lt hmask Discriminator.mask_and_free)
  | cons child way ih =>
    obtain ⟨hchild, hway⟩ := List.isChain_cons_cons.1 h
    obtain ⟨hmask, start', list, rfl⟩ := exists_build_of_isChild hchild
    have hfewer := Code.card_positions_lt hmask Discriminator.mask_and_free
    have hbelow := ih hway
    rw [List.countP_cons]
    split <;> omega

end Node

namespace DecisionTree

/-- A tree for so many indices is no larger than it has to be. -/
structure IsCompact (tree : DecisionTree) (count : Nat) : Prop where
  /-- There are at most `3 * count - 2` nodes. -/
  nodes : tree.allNodes.length + 2 ≤ 3 * count
  /-- No way down has more switches than there are bits in the form, or in a code. -/
  switches : ∀ way, List.IsChain Node.IsChild (tree.root :: way) →
    (tree.root :: way).countP (!·.isLeaf) ≤ min tree.form.bitLen 64
  /-- A single child does not have a single child. -/
  children : ∀ node ∈ tree.allNodes, node.branches.children.length = 1 →
    ∀ child, node.IsChild child → child.branches.children.length ≠ 1

/-- **Size**: a tree for `n` indices, of which there is at least one, has at most `3 * n - 2` nodes
    and on each way down at most one switch for each bit of the form; a switch with a single child
    is never followed by another one. -/
theorem isCompact_ofInstructions (form : Form) (instructions : List Instruction) (split : Bool)
    {indices : List Nat} (hne : indices ≠ []) :
    (ofInstructions form instructions split indices).IsCompact indices.length where
  nodes := by
    rw [allNodes, Node.length_allNodes]
    exact (Node.size_build_le _ _ hne).1
  switches way hway := by
    have h := Node.countP_isLeaf_le hway
    rwa [Form.codeMask, Code.card_positions_lowMask] at h
  children node hnode hsingle child hchild := by
    obtain ⟨free, start, candidates, -, rfl⟩ := Node.exists_build_and_free hnode
    obtain ⟨hlength, start', list, hchildren, hperm, hshared⟩ :=
      Node.exists_build_of_length_children hsingle
    rw [Node.IsChild, hchildren, List.mem_singleton] at hchild
    intro hagain
    rw [hchild] at hagain
    rcases Node.build_cases _ start' list with ⟨hleaf, -⟩ | ⟨hlength, hmask, -⟩
    · rw [hleaf] at hagain
      cases hagain
    · have := Node.two_le_length_children start' hlength hmask hshared
      omega

/-- Two instructions that share four bits, and each fixes one more bit that the other does not: a
    switch with a single child, a switch with two children and their leaves reach the bound. -/
theorem isCompact_ofInstructions_shared :
    ∃ instructions,
      [Sample.plain "x" "0101|1x|xx:a", Sample.plain "y" "0101|x0|xx:a"].mapM
        Instruction.compile = .ok instructions ∧
      [0, 1] ≠ [] ∧
      let tree := ofInstructions ⟨8, 1⟩ instructions true [0, 1]
      tree.allNodes.map (fun node => (node.mask, node.instructions)) =
        [(0xf0, []), (0x08, []), (0, [0]), (0, [1])] ∧
      tree.IsCompact 2 := by
  have hvalues : ([Sample.plain "x" "0101|1x|xx:a", Sample.plain "y" "0101|x0|xx:a"].mapM
      Instruction.compile).toOption.map (fun instructions =>
        (ofInstructions ⟨8, 1⟩ instructions true [0, 1]).allNodes.map fun node =>
          (node.mask, node.instructions)) =
      some [(0xf0, []), (0x08, []), (0, [0]), (0, [1])] := by
    decide +kernel
  obtain ⟨instructions, hcompiled, hnodes⟩ := Option.map_eq_some_iff.1 hvalues
  have hne : [0, 1] ≠ [] := List.cons_ne_nil 0 [1]
  exact ⟨instructions, toOption_eq_some.1 hcompiled, hne, hnodes,
    isCompact_ofInstructions ⟨8, 1⟩ instructions true hne⟩

end DecisionTree

end IsaCodec
