import IsaCodec.Code

/-! # Condition errors

    What can be wrong with the text of a condition, with its references to
    the instruction, and with its evaluation, and the wording of each fault. -/

namespace IsaCodec

namespace Condition

/-- Why a text is no condition. -/
inductive Fault where
  | unexpectedCharacter (c : Char)
  /-- A word that starts with a digit is no numeral below `2 ^ 64`. -/
  | invalidNumber (word : String)
  | expectedOperand
  | expectedNumber
  /-- An element index is not below `2 ^ 32`. -/
  | indexTooBig
  /-- A certain mark has to come next. -/
  | expectedMark (mark : Char)
  | expectedComparison
  /-- The text goes on after a complete condition. -/
  | unexpectedToken
  deriving DecidableEq

/-- Wording of the fault. -/
def Fault.message : Fault → String
  | unexpectedCharacter c => "unexpected character '" ++ String.singleton c ++ "'"
  | invalidNumber word => "invalid number " ++ word
  | expectedOperand => "expected field, number or function call"
  | expectedNumber => "expected number"
  | indexTooBig => "index is too big"
  | expectedMark mark => "expected '" ++ String.singleton mark ++ "'"
  | expectedComparison => "expected comparison operator, 'in' or 'in_range'"
  | unexpectedToken => "unexpected token"

/-- A fault at a position of the text. -/
structure ParseError where
  position : Nat
  fault : Fault
  deriving DecidableEq

end Condition

/-- What is wrong with a condition of an instruction. -/
inductive ConditionFault where
  /-- The text is no condition. -/
  | malformed (error : Condition.ParseError)
  | undefinedField (field : String)
  /-- The instruction does not have as many encoding elements. -/
  | elementIndex (field : String) (index count : Nat)
  /-- The field has no bits in the encoding element. -/
  | emptyElement (field : String) (index : Nat)
  | undefinedFunction (function : String)
  deriving DecidableEq

/-- Wording of the fault. -/
def ConditionFault.message : ConditionFault → String
  | malformed error =>
    "condition syntax error at " ++ toString error.position ++ ": " ++ error.fault.message
  | undefinedField field => "condition refers to undefined field \"" ++ field ++ "\""
  | elementIndex field index count =>
    "element index " ++ toString index ++ " of field \"" ++ field ++
      "\" is out of range, instruction has " ++ toString count ++ " element(s)"
  | emptyElement field index =>
    "field \"" ++ field ++ "\" has no bits in element " ++ toString index
  | undefinedFunction function => "function \"" ++ function ++ "\" is not registered"

/-- A condition fault and the instruction that has it. -/
structure ConditionError where
  instruction : String
  fault : ConditionFault
  deriving DecidableEq

/-- Wording of the error. -/
def ConditionError.message (error : ConditionError) : String :=
  error.instruction ++ ": " ++ error.fault.message

end IsaCodec
