import IsaCodec.Condition.Evaluation
import IsaCodec.Replacement

/-! # Evaluation on lanes

    A condition is evaluated for many codes, the lanes, at once.  Each
    operand is computed for all lanes before the next one is.  The children
    of a conjunction or disjunction are evaluated only on the lanes that no
    earlier child has decided, so a lane sees just the evaluations that it
    would see alone. -/

namespace IsaCodec

variable (registry : Registry) (instruction : Instruction)

/-- The values of an operand on all lanes. -/
def Operand.values (codes : List Code) : Operand → Traced ConditionError (List Code)
  | field name element =>
    Traced.collect (fun code => .ofExcept (instruction.valueOf name element code)) codes
  | immediate value => pure (codes.map fun _ => value)
  | call name argument => do
    let f ← Traced.ofExcept (registry.find instruction name)
    let arguments ← argument.values codes
    Traced.collect (fun (code, x) => instruction.apply name f code x) (codes.zip arguments)

namespace Condition

mutual

/-- On which lanes does the condition hold?  Without lanes nothing is evaluated. -/
def evaluateLanes (codes : List Code) : Condition → Traced ConditionError (List Bool)
  | compare subject comparison object =>
    if codes.isEmpty then pure [] else do
      let as ← subject.values registry instruction codes
      let bs ← object.values registry instruction codes
      pure (List.zipWith comparison.holds as bs)
  | inSet subject values =>
    if codes.isEmpty then pure [] else do
      let as ← subject.values registry instruction codes
      pure (as.map values.contains)
  | inRange subject first last =>
    if codes.isEmpty then pure [] else do
      let as ← subject.values registry instruction codes
      pure (as.map (isBetween first last))
  | all children => evaluateLanesUntil false codes children
  | any children => evaluateLanesUntil true codes children

/-- The value of the first child that has the decisive value on a lane, or
    else the opposite value. -/
def evaluateLanesUntil (decisive : Bool) (codes : List Code) :
    List Condition → Traced ConditionError (List Bool)
  | [] => pure (codes.map fun _ => !decisive)
  | child :: rest => do
    let first ← child.evaluateLanes codes
    let later ← evaluateLanesUntil decisive (selectWhere (· != decisive) codes first) rest
    pure (replaceWhere (· != decisive) first later)

end

end Condition

end IsaCodec
