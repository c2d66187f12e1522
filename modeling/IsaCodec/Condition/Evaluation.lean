import IsaCodec.Condition.Validity
import IsaCodec.Registry

/-! # Evaluation of conditions

    A condition is evaluated for one code of an instruction.  Operands are
    computed from left to right, and a function is looked up before its
    argument is computed.  A conjunction stops at the first child that fails,
    a disjunction at the first one that holds. -/

namespace IsaCodec

variable (registry : Registry) (instruction : Instruction)

/-- Calls a function for a code, and records the call. -/
def Instruction.apply (name : String) (f : Code → Context → Code) (code argument : Code) :
    Traced ConditionError Code :=
  let context := ⟨instruction, code⟩
  Traced.call ⟨name, argument, context⟩ (f argument context)

/-- The value of a field, or of its part in one encoding element. -/
def Instruction.valueOf (name : String) (element : Option Nat) (code : Code) :
    Except ConditionError Code :=
  match instruction.resolve name with
  | .error fault => .error ⟨instruction.name, fault⟩
  | .ok field =>
    match element with
    | none => .ok (field.decode code)
    | some index => .ok (field.decodeElement code instruction.form index)

/-- The value of an operand. -/
def Operand.value (code : Code) : Operand → Traced ConditionError Code
  | field name element => .ofExcept (instruction.valueOf name element code)
  | immediate value => pure value
  | call name argument => do
    let f ← Traced.ofExcept (registry.find instruction name)
    let x ← argument.value code
    instruction.apply name f code x

namespace Condition

/-- Is a word in an inclusive range? -/
def isBetween (first last value : Code) : Bool :=
  first ≤ value && value ≤ last

mutual

/-- Does the condition hold of a code? -/
def evaluate (code : Code) : Condition → Traced ConditionError Bool
  | compare subject comparison object => do
    let a ← subject.value registry instruction code
    let b ← object.value registry instruction code
    pure (comparison.holds a b)
  | inSet subject values => do
    let a ← subject.value registry instruction code
    pure (values.contains a)
  | inRange subject first last => do
    let a ← subject.value registry instruction code
    pure (isBetween first last a)
  | all children => evaluateUntil false code children
  | any children => evaluateUntil true code children

/-- The value of the first child that has the decisive value, or else the opposite value. -/
def evaluateUntil (decisive : Bool) (code : Code) : List Condition → Traced ConditionError Bool
  | [] => pure !decisive
  | child :: rest => do
    let value ← child.evaluate code
    if value = decisive then pure decisive else evaluateUntil decisive code rest

end

end Condition

end IsaCodec
