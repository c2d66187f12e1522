import IsaCodec.Decoder.Basic
import IsaCodec.DecisionTree.Lookup
import IsaCodec.Sorting

/-! # Decoding a code

    A code is as wide as the widest form; each instruction sees the leading
    bits that make up its own form.  Its candidates are confirmed in order of
    declaration. -/

namespace IsaCodec

/-- Several instructions match where at most one was expected. -/
structure Ambiguity where
  code : Code
  /-- Names of the instructions in order of declaration. -/
  instructions : List String
  deriving DecidableEq

/-- Wording of the error. -/
def Ambiguity.message (ambiguity : Ambiguity) : String :=
  "code " ++ ambiguity.code.hex ++ " matches " ++ toString ambiguity.instructions.length ++
    " instructions: " ++ ", ".intercalate ambiguity.instructions

/-- Why a code has no unique instruction. -/
inductive UniqueError where
  | condition (error : ConditionError)
  | ambiguity (error : Ambiguity)
  deriving DecidableEq

/-- An instruction that a code may be. -/
structure Candidate where
  /-- Position of the instruction in the description. -/
  index : Nat
  instruction : Instruction
  /-- The bits of the instruction's form. -/
  code : Code

namespace Candidate

/-- Do the conditions of the candidate accept its code? -/
def confirm (registry : Registry) (candidate : Candidate) : Traced ConditionError Bool :=
  candidate.instruction.confirmConditions registry candidate.code

/-- The candidates in order of declaration. -/
def sort (candidates : List Candidate) : List Candidate :=
  sortBy (fun a b => a.index ≤ b.index) candidates

end Candidate

namespace Decoder

/-- The candidates of one tree whose fixed bits match. -/
def candidatesOf (decoder : Decoder) (code : Code) (tree : DecisionTree) : List Candidate :=
  let code := tree.form.align code decoder.codeBitLen
  (tree.candidates code).filterMap fun index => do
    let instruction ← decoder.instructions[index]?
    if instruction.matchesFixedBits code then some ⟨index, instruction, code⟩ else none

/-- The instructions whose fixed bits match, in order of declaration. -/
def candidates (decoder : Decoder) (code : Code) : List Candidate :=
  Candidate.sort (decoder.trees.flatMap (decoder.candidatesOf code))

/-- All instructions that a code is, in order of declaration. -/
def decode (decoder : Decoder) (code : Code) : Traced ConditionError (List Instruction) := do
  let confirmed ← Traced.filter (·.confirm decoder.registry) (decoder.candidates code)
  pure (confirmed.map (·.instruction))

/-- The first instruction that a code is.  The conditions of those that are
    declared after it are not evaluated. -/
def decodeFirst (decoder : Decoder) (code : Code) :
    Traced ConditionError (Option Instruction) := do
  let first ← Traced.find? (·.confirm decoder.registry) (decoder.candidates code)
  pure (first.map (·.instruction))

/-- The only instruction that a code is; it is an error if there are several. -/
def decodeUnique (decoder : Decoder) (code : Code) :
    Traced UniqueError (Option Instruction) := do
  let matched ← (decoder.decode code).mapError .condition
  match matched with
  | [] => pure none
  | [instruction] => pure (some instruction)
  | several => .fail (.ambiguity ⟨code, several.map (·.name)⟩)

/-- The values of an instruction's fields in a code. -/
def extract (decoder : Decoder) (code : Code) (instruction : Instruction) : FieldValues :=
  instruction.decodeFields (instruction.form.align code decoder.codeBitLen)

end Decoder

end IsaCodec
