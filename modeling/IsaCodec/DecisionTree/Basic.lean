import IsaCodec.Form

/-! # Decision trees

    A decision tree narrows a code down to the instructions that it may be.
    A switch looks at the bits of a mask: it has a case for each value that
    some instructions fix these bits to, and one more branch for the
    instructions that do not fix them all.  A leaf lists the instructions
    that are left, by their indices.

    Nodes carry their number in depth-first preorder, in which the cases come
    in order and before the branch for the others. -/

namespace IsaCodec

mutual

/-- A node of a decision tree, with its number. -/
inductive Node where
  | leaf (index : Nat) (instructions : List Nat)
  | switch (index : Nat) (mask : Code) (branches : Branches) (instructions : List Nat)

/-- The branches of a switch, its cases in ascending order of their keys. -/
inductive Branches where
  | done
  /-- For the instructions that do not fix all bits of the mask. -/
  | others (child : Node)
  /-- For the instructions that fix the bits of the mask to the key. -/
  | case (key : Code) (child : Node) (rest : Branches)

end

/-- A decision tree over the instructions of one form. -/
structure DecisionTree where
  form : Form
  root : Node

namespace Node

/-- The number of the node. -/
def index : Node → Nat
  | leaf index _ => index
  | switch index _ _ _ => index

/-- Has the node no branches? -/
def isLeaf : Node → Bool
  | leaf _ _ => true
  | switch _ _ _ _ => false

/-- The bits that the node looks at; a leaf looks at none. -/
def mask : Node → Code
  | leaf _ _ => 0
  | switch _ mask _ _ => mask

/-- The instructions that the node lists. -/
def instructions : Node → List Nat
  | leaf _ instructions => instructions
  | switch _ _ _ instructions => instructions

/-- The branches of the node. -/
def branches : Node → Branches
  | leaf _ _ => .done
  | switch _ _ branches _ => branches

end Node

namespace Branches

/-- The keys of the cases, each with its child. -/
def cases : Branches → List (Code × Node)
  | done => []
  | others _ => []
  | case key child rest => (key, child) :: rest.cases

/-- The branch for the instructions that do not fix all bits of the mask. -/
def others? : Branches → Option Node
  | done => none
  | others child => some child
  | case _ _ rest => rest.others?

/-- The children in order. -/
def children : Branches → List Node
  | done => []
  | others child => [child]
  | case _ child rest => child :: rest.children

theorem children_eq (branches : Branches) :
    branches.children = branches.cases.map (·.2) ++ branches.others?.toList := by
  match branches with
  | done => rfl
  | others _ => rfl
  | case _ _ rest => simp [children, cases, others?, children_eq rest]

end Branches

/-! ## Size -/

mutual

/-- Number of nodes of a tree. -/
def Node.size : Node → Nat
  | .leaf _ _ => 1
  | .switch _ _ branches _ => branches.size + 1

/-- Number of nodes of the trees below some branches. -/
def Branches.size : Branches → Nat
  | .done => 0
  | .others child => child.size
  | .case _ child rest => child.size + rest.size

end

/-- Number of nodes of some trees. -/
def Node.totalSize (nodes : List Node) : Nat :=
  nodes.foldr (fun node total => node.size + total) 0

@[simp] theorem Node.totalSize_nil : Node.totalSize [] = 0 := rfl

@[simp] theorem Node.totalSize_cons (node : Node) (nodes : List Node) :
    Node.totalSize (node :: nodes) = node.size + Node.totalSize nodes := rfl

@[simp] theorem Node.totalSize_append (nodes others : List Node) :
    Node.totalSize (nodes ++ others) = Node.totalSize nodes + Node.totalSize others := by
  induction nodes with
  | nil => simp
  | cons node nodes ih => simp [ih, Nat.add_assoc]

theorem Branches.size_eq_totalSize (branches : Branches) :
    branches.size = Node.totalSize branches.children := by
  match branches with
  | .done => rfl
  | .others _ => simp [Branches.size, Branches.children]
  | .case _ _ rest => simp [Branches.size, Branches.children, Branches.size_eq_totalSize rest]

theorem Node.size_eq_totalSize (node : Node) :
    node.size = Node.totalSize node.branches.children + 1 := by
  cases node with
  | leaf => rfl
  | switch => simp [Node.size, Node.branches, Branches.size_eq_totalSize]

/-! ## Traversal -/

/-- The nodes of some trees: the first node, then the nodes of its children
    and of the other trees. -/
def Node.traverse : List Node → List Node
  | [] => []
  | node :: stack => node :: Node.traverse (node.branches.children ++ stack)
termination_by stack => Node.totalSize stack
decreasing_by
  have := Node.size_eq_totalSize node
  simp only [Node.totalSize_append, Node.totalSize_cons]
  omega

/-- All nodes of the tree below a node, the node itself first. -/
def Node.allNodes (node : Node) : List Node :=
  Node.traverse [node]

/-- All nodes of a tree. -/
def DecisionTree.allNodes (tree : DecisionTree) : List Node :=
  tree.root.allNodes

end IsaCodec
