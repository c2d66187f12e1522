import IsaCodec.Condition.Lanes

/-! # Confirmation

    A code is an instruction's if it has the fixed bits, the match condition
    holds and the unmatch condition does not.  The unmatch condition is
    evaluated only if the match condition holds.  The same is decided for
    one code and for many codes at once. -/

namespace IsaCodec.Instruction

variable (registry : Registry) (instruction : Instruction)

/-- Does an optional condition hold?  Without one the answer is `otherwise`. -/
def test (otherwise : Bool) (code : Code) : Option Condition → Traced ConditionError Bool
  | none => pure otherwise
  | some condition => condition.evaluate registry instruction code

/-- Do the conditions accept a code? -/
def confirmConditions (code : Code) : Traced ConditionError Bool := do
  if ← instruction.test registry true code instruction.matchCondition then
    let rejected ← instruction.test registry false code instruction.unmatchCondition
    pure !rejected
  else pure false

/-- Is a code the instruction's? -/
def confirm (code : Code) : Traced ConditionError Bool :=
  if instruction.matchesFixedBits code then instruction.confirmConditions registry code
  else pure false

/-! ## Lanes -/

/-- On which lanes does an optional condition hold?  Without one the answer
    is `otherwise` on all of them. -/
def testLanes (otherwise : Bool) (codes : List Code) :
    Option Condition → Traced ConditionError (List Bool)
  | none => pure (codes.map fun _ => otherwise)
  | some condition => condition.evaluateLanes registry instruction codes

/-- Which lanes do the conditions accept? -/
def confirmConditionsLanes (codes : List Code) : Traced ConditionError (List Bool) := do
  let accepted ← instruction.testLanes registry true codes instruction.matchCondition
  let rejected ← instruction.testLanes registry false (selectWhere id codes accepted)
    instruction.unmatchCondition
  pure (replaceWhere id accepted (rejected.map (!·)))

/-- On which lanes is the code the instruction's? -/
def confirmLanes (codes : List Code) : Traced ConditionError (List Bool) := do
  let fixed := codes.map instruction.matchesFixedBits
  let confirmed ← instruction.confirmConditionsLanes registry (selectWhere id codes fixed)
  pure (replaceWhere id fixed confirmed)

end IsaCodec.Instruction
