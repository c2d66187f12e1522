import IsaCodec.Ascending
import IsaCodec.DecisionTree.Basic
import IsaCodec.DecisionTree.Discriminator
import IsaCodec.Instruction.Basic

/-! # Building decision trees

    A node for at most one candidate, or for candidates that cannot be told
    apart any more, is a leaf.  Any other node is a switch on their
    discriminator, and its bits are not looked at again below it. -/

namespace IsaCodec

/-- Candidates by the value that they fix some bits to. -/
structure Partition where
  /-- The candidates that fix all of the bits, by their values in ascending order. -/
  cases : List (Code × List Nat)
  /-- The candidates that do not. -/
  others : List Nat

/-- Divides candidates by the bits of a mask. -/
def Partition.ofMask (fixed : Nat → FixedBits) (mask : Code) (candidates : List Nat) :
    Partition :=
  let fixing := candidates.filter fun i => (fixed i).mask &&& mask == mask
  let key := fun i => (fixed i).bits &&& mask
  { cases := (Ascending.ofList (fixing.map key)).map fun k =>
      (k, fixing.filter fun i => key i == k)
    others := candidates.filter fun i => (fixed i).mask &&& mask != mask }

namespace Branches

/-- The branches for cases and others, with nodes numbered from `start` on.
    The number of nodes of one child gives the number of the next. -/
def ofPartition (build : Nat → List Nat → Node) (start : Nat) (others : List Nat) :
    List (Code × List Nat) → Branches
  | [] => if others.isEmpty then .done else .others (build start others)
  | (key, candidates) :: rest =>
    let child := build start candidates
    .case key child (ofPartition build (start + child.size) others rest)

end Branches

namespace Node

/-- The node for some candidates, which differ in free bits only, and the
    nodes below it, numbered from `start` on. -/
def build (fixed : Nat → FixedBits) (split : Bool) (free : Code) (start : Nat)
    (candidates : List Nat) : Node :=
  if candidates.length ≤ 1 then .leaf start candidates
  else
    let mask := Discriminator.mask split (candidates.map fixed) free
    if h : mask = 0 then .leaf start candidates
    else
      let parts := Partition.ofMask fixed mask candidates
      .switch start mask
        (.ofPartition (fun start candidates =>
            build fixed split (free &&& ~~~mask) start candidates)
          (start + 1) parts.others parts.cases) []
termination_by free.toNat
decreasing_by exact Discriminator.toNat_and_not_mask_lt h

end Node

namespace DecisionTree

/-- The tree for candidates of one form, of which only the bits of the form
    are looked at. -/
def build (form : Form) (fixed : Nat → FixedBits) (split : Bool) (candidates : List Nat) :
    DecisionTree :=
  ⟨form, Node.build fixed split form.codeMask 0 candidates⟩

/-- The tree for the instructions of some indices. -/
def ofInstructions (form : Form) (instructions : List Instruction) (split : Bool)
    (indices : List Nat) : DecisionTree :=
  build form (Instruction.fixedAt instructions) split indices

end DecisionTree

end IsaCodec
