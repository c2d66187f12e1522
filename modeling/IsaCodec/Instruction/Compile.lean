import IsaCodec.Condition.Parser
import IsaCodec.Condition.Validity
import IsaCodec.Description.Basic

/-! # Compilation of instructions

    The layout is compiled first, then the match condition and then the
    unmatch condition; each condition is read and its references are
    checked.  The first error is the result. -/

namespace IsaCodec

/-- Why a description cannot be compiled. -/
inductive CompileError where
  | layout (error : LayoutError)
  | condition (error : ConditionError)
  deriving DecidableEq

/-- Wording of the error. -/
def CompileError.message : CompileError → String
  | layout error => error.message
  | condition error => error.message

namespace Instruction

/-- Reads a condition of an instruction. -/
def parseCondition (instruction text : String) : Except ConditionError Condition :=
  (Condition.parse text).mapError (⟨instruction, .malformed ·⟩)

/-- Reads and checks a condition, if there is one. -/
def compileCondition (instruction : Instruction) :
    Option String → Except ConditionError (Option Condition)
  | none => .ok none
  | some text => do
    let condition ← parseCondition instruction.name text
    condition.validate instruction
    pure (some condition)

/-- The instruction with its layout only. -/
def ofLayout (description : InstructionDescription) (layout : Layout) : Instruction where
  name := description.name
  format := description.format
  form := layout.form
  fixed := layout.fixed
  matchCondition := none
  unmatchCondition := none
  fields := layout.fields
  extras := description.extras

/-- Compiles both conditions of an instruction. -/
def withConditions (instruction : Instruction) (matchText unmatchText : Option String) :
    Except ConditionError Instruction := do
  let matchCondition ← instruction.compileCondition matchText
  let unmatchCondition ← instruction.compileCondition unmatchText
  pure { instruction with matchCondition, unmatchCondition }

/-- Compiles a description. -/
def compile (description : InstructionDescription) : Except CompileError Instruction :=
  match Layout.compile description.name description.format description.fieldExtras with
  | .error error => .error (.layout error)
  | .ok layout =>
    ((ofLayout description layout).withConditions description.matchCondition
      description.unmatchCondition).mapError .condition

end Instruction

end IsaCodec
