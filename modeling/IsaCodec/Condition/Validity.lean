import IsaCodec.Instruction.Basic

/-! # Validity of conditions

    A condition is valid for an instruction if every field that it refers to
    exists and has bits in the encoding element that it names, if any.
    Functions are looked up only when a condition is evaluated. -/

namespace IsaCodec

/-- Looks up the field that a reference names. -/
def Instruction.resolve (instruction : Instruction) (name : String) :
    Except ConditionFault Field :=
  match instruction.field? name with
  | some field => .ok field
  | none => .error (.undefinedField name)

/-- The first fault of an operand's references. -/
def Operand.check (instruction : Instruction) : Operand → Except ConditionFault Unit
  | field name element => do
    let field ← instruction.resolve name
    match element with
    | none => pure ()
    | some index =>
      if instruction.form.elementCount ≤ index then
        throw (.elementIndex name index instruction.form.elementCount)
      else if !field.hasElement instruction.form index then throw (.emptyElement name index)
      else pure ()
  | immediate _ => pure ()
  | call _ argument => argument.check instruction

namespace Condition

mutual

/-- The first fault of a condition's references, in order of writing. -/
def check (instruction : Instruction) : Condition → Except ConditionFault Unit
  | compare subject _ object => do
    subject.check instruction
    object.check instruction
  | inSet subject _ => subject.check instruction
  | inRange subject _ _ => subject.check instruction
  | all children => checkAll instruction children
  | any children => checkAll instruction children

/-- The first fault of the references of some conditions. -/
def checkAll (instruction : Instruction) : List Condition → Except ConditionFault Unit
  | [] => pure ()
  | child :: rest => do
    child.check instruction
    checkAll instruction rest

end

/-- Checks the references of a condition. -/
def validate (condition : Condition) (instruction : Instruction) : Except ConditionError Unit :=
  (condition.check instruction).mapError (⟨instruction.name, ·⟩)

end Condition

end IsaCodec
