import IsaCodec.Proofs.DecisionTree.Routing
import IsaCodec.Proofs.Order

/-! # Nodes of built trees

    Every node of a built tree was built itself, from fewer free bits and
    fewer candidates.  So a property of the candidates that each step of the
    building keeps holds at every node, and a fact about the first node of a
    tree is a fact about all of its nodes.

    * **`allNodes_eq`** — the traversal gives a node and then the nodes of its
      children.
    * **`perm_listed_build`** — the leaves list the candidates, each as often
      as it was given.
    * **`exists_build_of_mem_allNodes`** — what the steps keep holds at every
      node. -/

namespace IsaCodec

open scoped List

/-! ## Traversal -/

namespace Node

theorem traverse_append (nodes others : List Node) :
    traverse (nodes ++ others) = traverse nodes ++ traverse others := by
  induction nodes using traverse.induct with
  | case1 => simp [traverse]
  | case2 node stack ih =>
    rw [List.cons_append, traverse, traverse, List.cons_append, ← List.append_assoc, ih]

theorem traverse_eq_flatMap (nodes : List Node) : traverse nodes = nodes.flatMap allNodes := by
  induction nodes with
  | nil => simp [traverse]
  | cons node nodes ih =>
    rw [← List.singleton_append, traverse_append, List.flatMap_append, ← ih]
    simp [allNodes]

/-- The traversal is in **preorder**. -/
theorem allNodes_eq (node : Node) :
    node.allNodes = node :: node.branches.children.flatMap allNodes := by
  rw [allNodes, traverse, List.append_nil, traverse_eq_flatMap]

@[simp] theorem allNodes_leaf (number : Nat) (instructions : List Nat) :
    (leaf number instructions).allNodes = [leaf number instructions] :=
  allNodes_eq _

theorem allNodes_switch (number : Nat) (mask : Code) (branches : Branches)
    (instructions : List Nat) :
    (switch number mask branches instructions).allNodes =
      switch number mask branches instructions :: branches.children.flatMap allNodes :=
  allNodes_eq _

/-- The leaves from the node on. -/
def leaves (node : Node) : List Node :=
  node.allNodes.filter isLeaf

/-- The instructions that the leaves list, leaf by leaf. -/
def listed (node : Node) : List Nat :=
  node.leaves.flatMap instructions

@[simp] theorem leaves_leaf (number : Nat) (instructions : List Nat) :
    (leaf number instructions).leaves = [leaf number instructions] := by
  rw [leaves, allNodes_leaf]
  rfl

@[simp] theorem listed_leaf (number : Nat) (instructions : List Nat) :
    (leaf number instructions).listed = instructions := by
  rw [listed, leaves_leaf]
  exact List.append_nil instructions

theorem leaves_switch (number : Nat) (mask : Code) (branches : Branches)
    (instructions : List Nat) :
    (switch number mask branches instructions).leaves = branches.children.flatMap leaves := by
  unfold leaves
  rw [allNodes_switch, List.filter_cons_of_neg (by simp [isLeaf]), List.filter_flatMap]

theorem listed_switch (number : Nat) (mask : Code) (branches : Branches)
    (instructions : List Nat) :
    (switch number mask branches instructions).listed = branches.children.flatMap listed := by
  rw [listed, leaves_switch, List.flatMap_assoc]
  rfl

end Node

/-! ## Partitions -/

namespace Partition

variable {fixed : Nat → FixedBits} {mask : Code} {candidates : List Nat}

/-- The cases come in ascending order of their keys. -/
theorem pairwise_keys_ofMask :
    ((ofMask fixed mask candidates).cases.map Prod.fst).Pairwise (· < ·) := by
  unfold ofMask
  simp only [List.map_map, Function.comp_def, List.map_id']
  exact Ascending.pairwise_ofList BitVec.lt_trans connected_code _

/-- The candidates of a case fix all bits of the mask, to the key. -/
theorem of_mem_case {key : Code} {list : List Nat} {i : Nat}
    (hcase : (key, list) ∈ (ofMask fixed mask candidates).cases) (hi : i ∈ list) :
    i ∈ candidates ∧ (fixed i).mask &&& mask = mask ∧ (fixed i).bits &&& mask = key := by
  rw [(mem_cases_ofMask.1 hcase).2, List.mem_filter, Bool.and_eq_true, beq_iff_eq,
    beq_iff_eq] at hi
  exact hi

/-- There is a case if some candidate fixes the mask. -/
theorem cases_ofMask_ne_nil {i : Nat} (hi : i ∈ candidates)
    (hfixes : (fixed i).mask &&& mask = mask) : (ofMask fixed mask candidates).cases ≠ [] :=
  List.ne_nil_of_mem (mem_cases_ofMask.2 ⟨⟨i, hi, hfixes, rfl⟩, rfl⟩)

/-- No case is empty. -/
theorem ne_nil_of_mem_cases_ofMask {key : Code} {list : List Nat}
    (h : (key, list) ∈ (ofMask fixed mask candidates).cases) : list ≠ [] := by
  obtain ⟨⟨i, hi, hfixes, hkey⟩, rfl⟩ := mem_cases_ofMask.1 h
  apply List.ne_nil_of_mem (a := i)
  simp [hi, hfixes, hkey]

/-- A partition keeps all candidates, each as often as it was there. -/
theorem perm_ofMask :
    let parts := ofMask fixed mask candidates
    parts.cases.flatMap Prod.snd ++ parts.others ~ candidates := by
  intro parts
  have hfixing : parts.cases.flatMap Prod.snd ~
      candidates.filter fun i => (fixed i).mask &&& mask == mask := by
    show List.flatMap Prod.snd (List.map _ _) ~ _
    rw [List.flatMap_map]
    refine perm_flatMap_filter (fun i => (fixed i).bits &&& mask) ?_ ?_
    · exact (Ascending.pairwise_ofList BitVec.lt_trans connected_code _).imp BitVec.ne_of_lt
    · intro i hi
      exact (Ascending.mem_ofList connected_code).2 (List.mem_map_of_mem hi)
  refine (hfixing.append_right _).trans ?_
  exact List.filter_append_perm (fun i => (fixed i).mask &&& mask == mask) candidates

end Partition

/-! ## Branches -/

namespace Branches

variable {build : Nat → List Nat → Node} {start : Nat} {others : List Nat}
  {cases : List (Code × List Nat)}

theorem map_fst_cases_ofPartition :
    (ofPartition build start others cases).cases.map Prod.fst = cases.map Prod.fst := by
  induction cases generalizing start with
  | nil =>
    unfold ofPartition
    split <;> rfl
  | cons first rest ih =>
    show _ :: _ = _ :: _
    rw [ih]

theorem exists_of_mem_cases_ofPartition {key : Code} {child : Node}
    (h : (key, child) ∈ (ofPartition build start others cases).cases) :
    ∃ list, (key, list) ∈ cases ∧ ∃ start', child = build start' list := by
  induction cases generalizing start with
  | nil =>
    unfold ofPartition at h
    split at h <;> simp [Branches.cases] at h
  | cons first rest ih =>
    rcases List.mem_cons.1 h with heq | hrest
    · obtain ⟨rfl, rfl⟩ := Prod.mk.inj heq
      exact ⟨first.2, List.mem_cons_self, start, rfl⟩
    · obtain ⟨list, hlist, hchild⟩ := ih hrest
      exact ⟨list, List.mem_cons_of_mem first hlist, hchild⟩

theorem exists_of_others?_ofPartition {child : Node}
    (h : (ofPartition build start others cases).others? = some child) :
    others ≠ [] ∧ ∃ start', child = build start' others := by
  induction cases generalizing start with
  | nil =>
    unfold ofPartition at h
    split at h
    · cases h
    · next hothers =>
      refine ⟨?_, start, (Option.some.inj h).symm⟩
      simpa using hothers
  | cons first rest ih => exact ih h

/-- Each child is built from the candidates of a case or from the others. -/
theorem exists_of_mem_children_ofPartition {child : Node}
    (h : child ∈ (ofPartition build start others cases).children) :
    ∃ list, ((∃ key, (key, list) ∈ cases) ∨ (list = others ∧ others ≠ [])) ∧
      ∃ start', child = build start' list := by
  rw [children_eq, List.mem_append] at h
  rcases h with hcases | hothers
  · obtain ⟨first, hfirst, rfl⟩ := List.mem_map.1 hcases
    obtain ⟨list, hlist, hchild⟩ := exists_of_mem_cases_ofPartition hfirst
    exact ⟨list, .inl ⟨first.1, hlist⟩, hchild⟩
  · obtain ⟨hne, hchild⟩ := exists_of_others?_ofPartition (Option.mem_toList.1 hothers)
    exact ⟨others, .inr ⟨rfl, hne⟩, hchild⟩

theorem perm_listed_ofPartition (h : ∀ start' list, (build start' list).listed ~ list) :
    (ofPartition build start others cases).children.flatMap Node.listed ~
      cases.flatMap Prod.snd ++ others := by
  induction cases generalizing start with
  | nil =>
    unfold ofPartition
    split
    · next hothers => simp [children, List.isEmpty_iff.1 hothers]
    · simpa [children] using h start others
  | cons first rest ih =>
    show Node.listed _ ++ _ ~ first.2 ++ _ ++ _
    rw [List.append_assoc]
    exact (h start first.2).append ih

end Branches

/-! ## Built trees -/

namespace Node

variable {fixed : Nat → FixedBits} {split : Bool}

/-- The leaves **list the candidates**. -/
theorem perm_listed_build (free : Code) (start : Nat) (candidates : List Nat) :
    (build fixed split free start candidates).listed ~ candidates := by
  refine build_induction (motive := fun _ candidates node => node.listed ~ candidates)
    ?_ ?_ free start candidates
  · intro free start candidates _
    rw [listed_leaf]
  · intro free start candidates mask parts child _ _ ih
    rw [listed_switch]
    exact (Branches.perm_listed_ofPartition ih).trans Partition.perm_ofMask

theorem mem_listed_build {free : Code} {start : Nat} {candidates : List Nat} {i : Nat} :
    i ∈ (build fixed split free start candidates).listed ↔ i ∈ candidates :=
  (perm_listed_build free start candidates).mem_iff

/-- What holds of the free bits and the candidates of a tree, and is kept from each switch to its
    children, holds at **every node** of the tree, where it says something about the free bits and
    the candidates from which that node was built. -/
theorem exists_build_of_mem_allNodes {motive : Code → List Nat → Prop}
    (step : ∀ free candidates, motive free candidates →
      let mask := Discriminator.mask split (candidates.map fixed) free
      let parts := Partition.ofMask fixed mask candidates
      mask ≠ 0 →
        (∀ key list, (key, list) ∈ parts.cases → motive (free &&& ~~~mask) list) ∧
        (parts.others ≠ [] → motive (free &&& ~~~mask) parts.others))
    {free : Code} {start : Nat} {candidates : List Nat} (htop : motive free candidates)
    {node : Node} (hnode : node ∈ (build fixed split free start candidates).allNodes) :
    ∃ free' start' candidates', motive free' candidates' ∧
      node = build fixed split free' start' candidates' := by
  refine build_induction (motive := fun free candidates top =>
    (∃ start, top = build fixed split free start candidates) → motive free candidates →
      node ∈ top.allNodes → ∃ free' start' candidates', motive free' candidates' ∧
        node = build fixed split free' start' candidates') ?_ ?_ free start candidates
    ⟨start, rfl⟩ htop hnode
  · intro free start candidates _ hbuilt hholds hnode
    obtain ⟨start', hbuilt⟩ := hbuilt
    rw [allNodes_leaf, List.mem_singleton] at hnode
    exact ⟨free, start', candidates, hholds, hnode.trans hbuilt⟩
  · intro free start candidates mask parts child _ hmask ih hbuilt hholds hnode
    obtain ⟨start', hbuilt⟩ := hbuilt
    rw [allNodes_switch, List.mem_cons, List.mem_flatMap] at hnode
    rcases hnode with hself | ⟨below, hbelow, hnode⟩
    · exact ⟨free, start', candidates, hholds, hself.trans hbuilt⟩
    · -- Below the switch the node is one of a child, and the step leads to the child.
      obtain ⟨list, hlist, start'', rfl⟩ := Branches.exists_of_mem_children_ofPartition hbelow
      obtain ⟨hcases, hothers⟩ := step free candidates hholds hmask
      have hchild : motive (free &&& ~~~mask) list := by
        rcases hlist with ⟨key, hcase⟩ | ⟨rfl, hne⟩
        · exact hcases key list hcase
        · exact hothers hne
      exact ih start'' list ⟨start'', rfl⟩ hchild hnode

/-- The bits that are free at a node are free at the top. -/
theorem exists_build_and_free {free : Code} {start : Nat} {candidates : List Nat} {node : Node}
    (hnode : node ∈ (build fixed split free start candidates).allNodes) :
    ∃ free' start' candidates', free' &&& free = free' ∧
      node = build fixed split free' start' candidates' := by
  have hfewer : ∀ free' mask : Code, free' &&& free = free' →
      free' &&& ~~~mask &&& free = free' &&& ~~~mask := by
    intro free' mask hfree
    rw [BitVec.and_assoc, BitVec.and_comm _ free, ← BitVec.and_assoc, hfree]
  exact exists_build_of_mem_allNodes (motive := fun free' _ => free' &&& free = free')
    (fun free' _ hfree _ => ⟨fun _ _ _ => hfewer free' _ hfree, fun _ => hfewer free' _ hfree⟩)
    BitVec.and_self hnode

end Node

end IsaCodec
