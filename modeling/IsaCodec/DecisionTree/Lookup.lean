import IsaCodec.Ascending
import IsaCodec.DecisionTree.Basic
import IsaCodec.Instruction.Confirm

/-! # Looking up codes

    A lookup takes, at each switch, the case of the code's own bits and the
    branch for the others, and gathers the instructions of the nodes on the
    way.  They still have to be confirmed. -/

namespace IsaCodec

mutual

/-- The instructions of the nodes that a code leads to. -/
def Node.collect (code : Code) : Node → List Nat
  | .leaf _ instructions => instructions
  | .switch _ mask branches instructions =>
    instructions ++ branches.collect code (code &&& mask)

/-- The instructions of the nodes that a code leads to, through the case of
    a key and the branch for the others. -/
def Branches.collect (code key : Code) : Branches → List Nat
  | .done => []
  | .others child => child.collect code
  | .case k child rest =>
    (if k = key then child.collect code else []) ++ rest.collect code key

end

namespace DecisionTree

/-- The instructions that a code may be, in ascending order of their indices. -/
def candidates (tree : DecisionTree) (code : Code) : List Nat :=
  Ascending.ofList (tree.root.collect (code &&& tree.form.codeMask))

/-- The instructions that a code is, in ascending order of their indices.
    Candidates are confirmed in this order; an index without an instruction
    is not confirmed. -/
def decode (tree : DecisionTree) (registry : Registry) (instructions : List Instruction)
    (code : Code) : Traced ConditionError (List Nat) :=
  let code := code &&& tree.form.codeMask
  Traced.filter (fun i =>
    match instructions[i]? with
    | none => pure false
    | some instruction => instruction.confirm registry code) (tree.candidates code)

end DecisionTree

end IsaCodec
