import IsaCodec.Condition.Basic
import IsaCodec.Text.Number

/-! # Writing conditions

    Numbers are written in decimal.  A conjunction or disjunction inside
    another one is written in parentheses, whether or not the grammar needs
    them, so that the tree can be read back from the text. -/

namespace IsaCodec

/-- A word as a decimal numeral. -/
def Code.decimal (word : Code) : List Char :=
  Text.decimal word.toNat

/-- Characters of an operand. -/
def Operand.render : Operand → List Char
  | field name none => name.toList
  | field name (some element) => name.toList ++ '[' :: Text.decimal element ++ [']']
  | immediate value => value.decimal
  | call function argument => function.toList ++ '(' :: argument.render ++ [')']

namespace Condition

/-- Parentheses around a conjunction or disjunction. -/
def parenthesize (child : Condition) (text : List Char) : List Char :=
  if child.isCompound then '(' :: text ++ [')'] else text

mutual

/-- Characters of a condition. -/
def render : Condition → List Char
  | compare subject comparison object =>
    subject.render ++ ' ' :: comparison.symbol.toList ++ ' ' :: object.render
  | inSet subject values =>
    subject.render ++ " in [".toList ++ [',', ' '].intercalate (values.map Code.decimal) ++ [']']
  | inRange subject first last =>
    subject.render ++ " in_range ".toList ++ first.decimal ++ '-' :: last.decimal
  | all children => renderChain " and ".toList children
  | any children => renderChain " or ".toList children

/-- Characters of the parts of a chain with a separator between them. -/
def renderChain (separator : List Char) : List Condition → List Char
  | [] => []
  | [child] => parenthesize child child.render
  | child :: rest => parenthesize child child.render ++ separator ++ renderChain separator rest

end

/-- Text of a condition. -/
def text (condition : Condition) : String :=
  String.ofList condition.render

end Condition

end IsaCodec
