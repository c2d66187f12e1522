import IsaCodec.Code

/-! # Conditions

    The syntax tree of a match condition such as
    `cond in_range 0-14 and setbit_count(register_list) > 1`.  The lists of
    `all` and `any` may have any length; with no children, `all` holds and
    `any` does not. -/

namespace IsaCodec

/-- Comparison of two unsigned words. -/
inductive Comparison where
  | eq
  | ne
  | lt
  | le
  | gt
  | ge
  deriving DecidableEq

namespace Comparison

/-- Does the comparison hold of two words? -/
def holds (comparison : Comparison) (a b : Code) : Bool :=
  match comparison with
  | eq => a == b
  | ne => a != b
  | lt => a < b
  | le => a ≤ b
  | gt => b < a
  | ge => b ≤ a

/-- The operator's spelling. -/
def symbol : Comparison → String
  | eq => "=="
  | ne => "!="
  | lt => "<"
  | le => "<="
  | gt => ">"
  | ge => ">="

end Comparison

/-- What a condition compares. -/
inductive Operand where
  /-- A field's value, or the part of it that one encoding element holds. -/
  | field (name : String) (element : Option Nat)
  | immediate (value : Code)
  /-- A registered function, called with the value of an operand. -/
  | call (function : String) (argument : Operand)
  deriving DecidableEq

/-- A condition on the fields of an instruction. -/
inductive Condition where
  | compare (subject : Operand) (comparison : Comparison) (object : Operand)
  | inSet (subject : Operand) (values : List Code)
  /-- Both ends belong to the range. -/
  | inRange (subject : Operand) (first last : Code)
  | all (children : List Condition)
  | any (children : List Condition)

/-- Is the condition a conjunction or a disjunction? -/
def Condition.isCompound : Condition → Bool
  | all _ | any _ => true
  | _ => false

end IsaCodec
