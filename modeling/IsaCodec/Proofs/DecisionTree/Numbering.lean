import IsaCodec.Proofs.DecisionTree.Representation

/-! # Numbers of nodes

    A node is where a path from the top leads: at each switch the path takes
    the case of a key or the branch for the others.  Paths are ordered like
    the words of a dictionary, with the keys in ascending order and the
    others last.  This is the depth-first preorder: a node comes before the
    nodes below it, and all nodes below one branch come before those below
    the next.

    * **`Node.paths`** — all paths that lead to a node, in this order.
    * **`Node.map_at?_paths`** — the traversal meets the nodes of the paths,
      one after the other.
    * **`Node.map_index_build`** — it meets the numbers `start`, `start + 1`
      and so on.
    * **`Node.counting_eq`** — the numbers are those of a counter from which
      each node takes one when its building begins. -/

namespace IsaCodec

/-! ## Paths -/

/-- One step down a tree. -/
inductive Edge where
  /-- To the case of a key. -/
  | case (key : Code)
  /-- To the branch for the others. -/
  | others

/-- Cases come in ascending order of their keys, the others come last. -/
def Edge.Before : Edge → Edge → Prop
  | case a, case b => a < b
  | case _, others => True
  | others, _ => False

/-- The child at an edge. -/
def Branches.child? (branches : Branches) : Edge → Option Node
  | .case key => branches.cases.lookup key
  | .others => branches.others?

/-- The node to which a path leads. -/
def Node.at? (node : Node) : List Edge → Option Node
  | [] => some node
  | edge :: path => (node.branches.child? edge).bind (·.at? path)

mutual

/-- The paths that lead to a node of a tree. -/
def Node.paths : Node → List (List Edge)
  | .leaf _ _ => [[]]
  | .switch _ _ branches _ => [] :: branches.paths

/-- The paths that lead through some branches. -/
def Branches.paths : Branches → List (List Edge)
  | .done => []
  | .others child => child.paths.map (Edge.others :: ·)
  | .case key child rest => child.paths.map (Edge.case key :: ·) ++ rest.paths

end

/-! ### Edges -/

namespace Branches

/-- The edges of some branches, each with its child. -/
def edges (branches : Branches) : List (Edge × Node) :=
  branches.cases.map (fun (key, child) => (.case key, child)) ++
    branches.others?.toList.map fun child => (.others, child)

theorem edges_case (key : Code) (child : Node) (rest : Branches) :
    (case key child rest).edges = (.case key, child) :: rest.edges := rfl

theorem map_snd_edges (branches : Branches) : branches.edges.map Prod.snd = branches.children := by
  simp [edges, children_eq, Function.comp_def]

theorem paths_eq (branches : Branches) :
    branches.paths = branches.edges.flatMap fun (edge, child) => child.paths.map (edge :: ·) := by
  match branches with
  | .done => rfl
  | .others child => simp [paths, edges, cases, others?]
  | .case key child rest => rw [paths, edges_case, List.flatMap_cons, paths_eq rest]

theorem pairwise_edges {branches : Branches}
    (h : (branches.cases.map Prod.fst).Pairwise (· < ·)) :
    branches.edges.Pairwise fun a b => a.1.Before b.1 := by
  rw [List.pairwise_map] at h
  rw [edges, List.pairwise_append, List.pairwise_map, List.pairwise_map]
  refine ⟨h, ?_, ?_⟩
  · cases branches.others? <;> simp
  · intro a ha b hb
    obtain ⟨first, -, rfl⟩ := List.mem_map.1 ha
    obtain ⟨child, -, rfl⟩ := List.mem_map.1 hb
    trivial

/-- With keys in order, no key is twice among the cases. -/
theorem lookup_cases_eq_some {branches : Branches} {key : Code} {child : Node}
    (h : (branches.cases.map Prod.fst).Pairwise (· < ·)) :
    branches.cases.lookup key = some child ↔ (key, child) ∈ branches.cases := by
  rw [List.lookup_eq_some_iff]
  constructor
  · intro hsplit
    obtain ⟨before, after, heq, -⟩ := hsplit
    rw [heq]
    exact List.mem_append_right _ List.mem_cons_self
  · intro hmem
    obtain ⟨before, after, heq⟩ := List.append_of_mem hmem
    rw [heq, List.map_append, List.pairwise_append] at h
    refine ⟨before, after, heq, fun pair hpair => ?_⟩
    have hlt := h.2.2 _ (List.mem_map_of_mem hpair) key List.mem_cons_self
    rw [bne_iff_ne]
    exact (BitVec.ne_of_lt hlt).symm

theorem child?_eq_some {branches : Branches} {edge : Edge} {child : Node}
    (h : (branches.cases.map Prod.fst).Pairwise (· < ·)) :
    branches.child? edge = some child ↔ (edge, child) ∈ branches.edges := by
  cases edge with
  | case key =>
    rw [child?, lookup_cases_eq_some h]
    simp [edges]
  | others => simp [child?, edges]

end Branches

/-! ### Nodes -/

namespace Node

theorem paths_eq (node : Node) :
    node.paths = [] :: node.branches.edges.flatMap fun (edge, child) =>
      child.paths.map (edge :: ·) := by
  cases node with
  | leaf number instructions => rfl
  | switch number mask branches instructions => rw [paths, branches.paths_eq, Node.branches]

/-- The keys of every switch from the node on are in ascending order. -/
def IsOrdered (node : Node) : Prop :=
  ∀ below ∈ node.allNodes, (below.branches.cases.map Prod.fst).Pairwise (· < ·)

theorem IsOrdered.keys {node : Node} (h : node.IsOrdered) :
    (node.branches.cases.map Prod.fst).Pairwise (· < ·) :=
  h node (node.allNodes_eq ▸ List.mem_cons_self)

theorem IsOrdered.child {node child : Node} (h : node.IsOrdered)
    (hchild : child ∈ node.branches.children) : child.IsOrdered := by
  intro below hbelow
  refine h below ?_
  rw [allNodes_eq]
  exact List.mem_cons_of_mem _ (List.mem_flatMap.2 ⟨child, hchild, hbelow⟩)

theorem size_lt_of_mem_children {node child : Node} (h : child ∈ node.branches.children) :
    child.size < node.size := by
  obtain ⟨before, after, hchildren⟩ := List.append_of_mem h
  rw [size_eq_totalSize node, hchildren, totalSize_append, totalSize_cons]
  omega

/-- **Induction over ordered trees**, from the edges of a node to the node. -/
theorem IsOrdered.induction {motive : Node → Prop}
    (step : ∀ node, node.IsOrdered →
      (∀ edge child, (edge, child) ∈ node.branches.edges → motive child) → motive node)
    {node : Node} (h : node.IsOrdered) : motive node := by
  -- Edges are items of a list and not parts of the node, so the induction is on the size.
  induction hn : node.size using Nat.strongRecOn generalizing node with
  | ind n ih =>
    subst hn
    refine step node h fun edge child hedge => ?_
    have hchild : child ∈ node.branches.children := by
      rw [← Branches.map_snd_edges]
      exact List.mem_map.2 ⟨(edge, child), hedge, rfl⟩
    exact ih child.size (size_lt_of_mem_children hchild) (h.child hchild) rfl

/-! ## The traversal -/

section IsOrdered

variable {node : Node} (h : node.IsOrdered)
include h

theorem at?_cons_of_mem_edges {edge : Edge} {child : Node}
    (hedge : (edge, child) ∈ node.branches.edges) (path : List Edge) :
    node.at? (edge :: path) = child.at? path := by
  rw [at?, (Branches.child?_eq_some h.keys).2 hedge, Option.bind_some]

/-- The paths are **all paths** that lead to a node. -/
theorem mem_paths {path : List Edge} : path ∈ node.paths ↔ (node.at? path).isSome := by
  refine h.induction (motive := fun node => ∀ path, path ∈ node.paths ↔ (node.at? path).isSome)
    (fun node h ih path => ?_) path
  rw [paths_eq]
  cases path with
  | nil => simp [at?]
  | cons edge path =>
    simp only [List.mem_cons, reduceCtorEq, false_or, List.mem_flatMap, List.mem_map, Prod.exists,
      List.cons.injEq]
    constructor
    · rintro ⟨_, child, hedge, _, hpath, rfl, rfl⟩
      rw [at?_cons_of_mem_edges h hedge]
      exact (ih _ child hedge _).1 hpath
    · intro hpath
      obtain ⟨below, hbelow⟩ := Option.isSome_iff_exists.1 hpath
      obtain ⟨child, hchild, hbelow⟩ := Option.bind_eq_some_iff.1 hbelow
      have hedge := (Branches.child?_eq_some h.keys).1 hchild
      refine ⟨edge, child, hedge, path, (ih edge child hedge path).2 ?_, rfl, rfl⟩
      rw [hbelow, Option.isSome_some]

/-- They are in **depth-first preorder**. -/
theorem pairwise_paths : node.paths.Pairwise (List.Lex Edge.Before) := by
  refine h.induction (motive := fun node => node.paths.Pairwise (List.Lex Edge.Before))
    fun node h ih => ?_
  rw [paths_eq, List.pairwise_cons, List.pairwise_flatMap]
  refine ⟨fun path hpath => ?_, fun pair hpair => ?_, ?_⟩
  -- The node itself comes before the nodes below it.
  · obtain ⟨_, -, hpath⟩ := List.mem_flatMap.1 hpath
    obtain ⟨_, -, rfl⟩ := List.mem_map.1 hpath
    exact .nil
  -- Below one edge, the rest of the paths decides.
  · rw [List.pairwise_map]
    exact (ih pair.1 pair.2 hpair).imp .cons
  -- Below two edges, the edges decide.
  · refine (Branches.pairwise_edges h.keys).imp fun hbefore path hpath path' hpath' => ?_
    obtain ⟨_, -, rfl⟩ := List.mem_map.1 hpath
    obtain ⟨_, -, rfl⟩ := List.mem_map.1 hpath'
    exact .rel hbefore

/-- The traversal **meets their nodes** in turn. -/
theorem map_at?_paths : node.paths.map node.at? = node.allNodes.map some := by
  refine h.induction (motive := fun node => node.paths.map node.at? = node.allNodes.map some)
    fun node h ih => ?_
  rw [paths_eq, allNodes_eq, ← Branches.map_snd_edges, List.flatMap_map, List.map_cons,
    List.map_cons, List.map_flatMap, List.map_flatMap]
  refine congrArg₂ List.cons rfl (List.flatMap_congr fun pair hpair => ?_)
  rw [List.map_map, ← ih pair.1 pair.2 hpair]
  exact List.map_congr_left fun path _ => at?_cons_of_mem_edges h hpair path

end IsOrdered

end Node

/-! ## Numbers -/

/-- Children that are numbered one after the other have all numbers from the first one on. -/
theorem Branches.map_index_ofPartition {build : Nat → List Nat → Node} {others : List Nat}
    {cases : List (Code × List Nat)} {start : Nat}
    (h : ∀ start' list, (build start' list).allNodes.map Node.index =
      List.range' start' (build start' list).size) :
    ((ofPartition build start others cases).children.flatMap Node.allNodes).map Node.index =
      List.range' start (ofPartition build start others cases).size := by
  induction cases generalizing start with
  | nil =>
    unfold ofPartition
    split
    · rfl
    · simpa [children, size] using h start others
  | cons first rest ih =>
    rw [ofPartition, children, List.flatMap_cons, List.map_append, h, ih, size,
      ← List.range'_append_1]

namespace Node

variable {fixed : Nat → FixedBits} {split : Bool}

theorem index_build (free : Code) (start : Nat) (candidates : List Nat) :
    (build fixed split free start candidates).index = start := by
  rcases build_cases free start candidates with ⟨hleaf, -⟩ | ⟨-, -, hswitch⟩
  · rw [hleaf]
    rfl
  · rw [hswitch]
    rfl

/-- The traversal of a built tree meets **consecutive numbers**. -/
theorem map_index_build (free : Code) (start : Nat) (candidates : List Nat) :
    (build fixed split free start candidates).allNodes.map index =
      List.range' start (build fixed split free start candidates).size := by
  -- The first number is that of the node itself.
  suffices h : (build fixed split free start candidates).allNodes.map index =
      List.range' (build fixed split free start candidates).index
        (build fixed split free start candidates).size by
    rwa [index_build] at h
  refine build_induction (motive := fun _ _ node =>
    node.allNodes.map index = List.range' node.index node.size) ?_ ?_ free start candidates
  · intro free start candidates _
    rw [allNodes_leaf]
    rfl
  · intro free start candidates mask parts child _ _ ih
    have hchild : ∀ start' list, (child start' list).allNodes.map index =
        List.range' start' (child start' list).size := by
      intro start' list
      rw [ih, index_build]
    rw [allNodes_switch, List.map_cons, Branches.map_index_ofPartition hchild]
    rfl

end Node

/-! ## A counter -/

/-- The branches for cases and others, with a counter that is handed from each child to the next
    one. -/
def Branches.counting (build : Nat → List Nat → Node × Nat) (counter : Nat) (others : List Nat) :
    List (Code × List Nat) → Branches × Nat
  | [] =>
    if others.isEmpty then (.done, counter)
    else
      let (child, counter) := build counter others
      (.others child, counter)
  | (key, candidates) :: rest =>
    let (child, counter) := build counter candidates
    let (branches, counter) := counting build counter others rest
    (.case key child branches, counter)

/-- The node for some candidates, and the counter after it and the nodes below it have taken
    their numbers. -/
def Node.counting (fixed : Nat → FixedBits) (split : Bool) (free : Code) (counter : Nat)
    (candidates : List Nat) : Node × Nat :=
  if candidates.length ≤ 1 then (.leaf counter candidates, counter + 1)
  else
    let mask := Discriminator.mask split (candidates.map fixed) free
    if h : mask = 0 then (.leaf counter candidates, counter + 1)
    else
      let parts := Partition.ofMask fixed mask candidates
      let (branches, next) := Branches.counting (fun counter candidates =>
        counting fixed split (free &&& ~~~mask) counter candidates)
        (counter + 1) parts.others parts.cases
      (.switch counter mask branches [], next)
termination_by free.toNat
decreasing_by exact Discriminator.toNat_and_not_mask_lt h

/-- The tree for the instructions of some indices, and the counter after its building. -/
def DecisionTree.counting (form : Form) (instructions : List Instruction) (split : Bool)
    (indices : List Nat) : DecisionTree × Nat :=
  let (root, counter) :=
    Node.counting (Instruction.fixedAt instructions) split form.codeMask 0 indices
  (⟨form, root⟩, counter)

theorem Branches.counting_eq {counting : Nat → List Nat → Node × Nat}
    {build : Nat → List Nat → Node}
    (h : ∀ counter list, counting counter list =
      (build counter list, counter + (build counter list).size))
    (counter : Nat) (others : List Nat) (cases : List (Code × List Nat)) :
    Branches.counting counting counter others cases =
      (ofPartition build counter others cases,
        counter + (ofPartition build counter others cases).size) := by
  induction cases generalizing counter with
  | nil =>
    unfold Branches.counting ofPartition
    split
    · rfl
    · rw [h]
      rfl
  | cons first rest ih =>
    rw [Branches.counting, h]
    dsimp only
    rw [ih, ofPartition, size, Nat.add_assoc]

namespace Node

variable {fixed : Nat → FixedBits} {split : Bool}

/-- The **counter** gives the nodes their numbers. -/
theorem counting_eq (free : Code) (counter : Nat) (candidates : List Nat) :
    counting fixed split free counter candidates =
      (build fixed split free counter candidates,
        counter + (build fixed split free counter candidates).size) := by
  induction hn : free.toNat using Nat.strongRecOn generalizing free counter candidates with
  | ind n ih =>
    subst hn
    unfold counting build
    by_cases hlength : candidates.length ≤ 1
    · rw [if_pos hlength, if_pos hlength]
      rfl
    · rw [if_neg hlength, if_neg hlength]
      by_cases hmask : Discriminator.mask split (candidates.map fixed) free = 0
      · simp only [hmask, dif_pos]
        rfl
      · have hfewer := Discriminator.toNat_and_not_mask_lt hmask
        simp only [hmask, dif_neg, not_false_iff]
        -- The switch has taken its number when the first child takes one.
        rw [Branches.counting_eq fun counter list => ih _ hfewer _ counter list rfl]
        simp only [size, Nat.add_assoc, Nat.add_comm 1]

end Node

namespace DecisionTree

/-- The nodes of a tree are visited in the order of their numbers. -/
structure IsNumbered (tree : DecisionTree) (paths : List (List Edge)) : Prop where
  /-- Each path that leads to a node is listed. -/
  complete : ∀ path, path ∈ paths ↔ (tree.root.at? path).isSome
  /-- It is listed once, and the paths are in depth-first preorder. -/
  preorder : paths.Pairwise (List.Lex Edge.Before)
  /-- The traversal visits the nodes of the paths, one after the other. -/
  visits : tree.allNodes.map some = paths.map tree.root.at?
  /-- Their numbers count the nodes that have been visited. -/
  index : ∀ k (hk : k < tree.allNodes.length), tree.allNodes[k].index = k

theorem isOrdered_build (form : Form) (fixed : Nat → FixedBits) (split : Bool)
    (indices : List Nat) : (build form fixed split indices).root.IsOrdered := by
  intro node hnode
  cases node with
  | leaf number instructions => exact .nil
  | switch number mask branches instructions =>
    exact ((represents_build form indices).switch number mask branches instructions hnode).ascending

/-- **Numbers and traversal agree**: a counter that is handed through the building of a tree ends at
    the number of its nodes, and the traversal visits each node once, in depth-first preorder, the
    cases of a switch in ascending order and then the others; the node that is visited after `k`
    others has the number `k`. -/
theorem isNumbered_ofInstructions (form : Form) (instructions : List Instruction) (split : Bool)
    (indices : List Nat) :
    let tree := ofInstructions form instructions split indices
    counting form instructions split indices = (tree, tree.allNodes.length) ∧
      ∃ paths, tree.IsNumbered paths := by
  intro tree
  have hordered := isOrdered_build form (Instruction.fixedAt instructions) split indices
  have hindex : tree.allNodes.map Node.index = List.range' 0 tree.root.size :=
    Node.map_index_build _ _ _
  have hlength : tree.allNodes.length = tree.root.size := by
    have hcount := congrArg List.length hindex
    rwa [List.length_map, List.length_range'] at hcount
  constructor
  · unfold counting
    rw [Node.counting_eq, hlength, Nat.zero_add]
    rfl
  · refine ⟨tree.root.paths, fun _ => Node.mem_paths hordered, Node.pairwise_paths hordered,
      (Node.map_at?_paths hordered).symm, fun k hk => ?_⟩
    have hnumber : (tree.allNodes.map Node.index)[k]? = some k := by
      rw [hindex, List.getElem?_range' (hlength ▸ hk), Nat.zero_add, Nat.one_mul]
    rw [List.getElem?_map, List.getElem?_eq_getElem hk] at hnumber
    exact Option.some.inj hnumber

end DecisionTree

end IsaCodec
