import IsaCodec.DecisionTree.Basic

/-! # Writing decision trees

    One line for each node, indented by its depth, in preorder.  The line of
    a node begins with the key of its case, or with a star for the branch of
    the others; then come its number and either the mask of a switch or the
    names of the instructions of a leaf. -/

namespace IsaCodec

/-- Text in front of a node at some depth. -/
private def indent (depth : Nat) : String :=
  "".pushn ' ' (2 * depth)

/-- A node's number in brackets. -/
private def numberText (index : Nat) : String :=
  "[" ++ toString index ++ "] "

/-- The instructions of a leaf, or a dash if it has none. -/
private def leafText (name : Nat → String) (instructions : List Nat) : String :=
  if instructions.isEmpty then "-" else ", ".intercalate (instructions.map name)

mutual

/-- Lines of a node and the nodes below it; words are padded to `width`. -/
def Node.text (name : Nat → String) (width depth : Nat) (label : String) : Node → String
  | .leaf index instructions =>
    indent depth ++ label ++ numberText index ++ leafText name instructions ++ "\n"
  | .switch index mask branches _ =>
    indent depth ++ label ++ numberText index ++ "mask " ++ mask.hexPadded width ++ "\n" ++
      branches.text name width (depth + 1)

/-- Lines of the nodes below a switch. -/
def Branches.text (name : Nat → String) (width depth : Nat) : Branches → String
  | .done => ""
  | .others child => child.text name width depth "*: "
  | .case key child rest =>
    child.text name width depth (key.hexPadded width ++ ": ") ++ rest.text name width depth

end

/-- Text of a tree: its form, then a line for each node. -/
def DecisionTree.text (tree : DecisionTree) (name : Nat → String) : String :=
  let digits := (tree.form.bitLen + 3) / 4
  tree.form.text ++ ":\n" ++ tree.root.text name (digits + 2) 1 ""

end IsaCodec
