import IsaCodec.Condition.Token

/-! # Reading conditions

    The grammar over tokens:

    * condition: conjunctions separated by `or`
    * conjunction: atoms separated by `and`
    * atom: `(` condition `)`, or an operand followed by a comparison and an
      operand, by `in` and numbers in brackets, or by `in_range` and two
      numbers with `-` between them
    * operand: a number, a name, a name and an element index in brackets, or
      a name and an operand in parentheses

    A chain of one part is that part; a longer one is a single `any` or `all`
    with the parts in order.  The four keywords are no names. -/

namespace IsaCodec.Condition

namespace Parser

open Reader (stop separated)

/-- The words that cannot be names. -/
def isKeyword (word : String) : Bool :=
  word == "and" || word == "or" || word == "in" || word == "in_range"

/-- The rest after a token, if it comes next. -/
def eat? (token : Token) : List Token → Option (List Token)
  | [] => none
  | next :: rest => if next = token then some rest else none

/-- The rest after a mark, which has to come next. -/
def expect (c : Char) (tokens : List Token) : Except (Stop Fault Token) (List Token) :=
  match eat? (.mark c) tokens with
  | some rest => .ok rest
  | none => stop (.expectedMark c) tokens

/-- Reads a number. -/
def number : Reader Fault Token Code
  | .number value :: rest => .ok (value, rest)
  | tokens => stop .expectedNumber tokens

/-- Reads an operand. -/
def operand : Reader Fault Token Operand
  | .number value :: rest => .ok (.immediate value, rest)
  | .word name :: rest =>
    if isKeyword name then stop .expectedOperand (.word name :: rest)
    else match rest with
      | .mark '(' :: rest => do
        let (argument, rest) ← operand rest
        let rest ← expect ')' rest
        pure (.call name argument, rest)
      | .mark '[' :: rest => do
        let (index, rest) ← number rest
        if index.toNat < 1 <<< 32 then
          let rest ← expect ']' rest
          pure (.field name (some index.toNat), rest)
        else stop .indexTooBig rest
      | rest => .ok (.field name none, rest)
  | tokens => stop .expectedOperand tokens

/-- Reads an operand and what is asked of it. -/
def comparison : Reader Fault Token Condition := fun tokens => do
  let (subject, rest) ← operand tokens
  match rest with
  | .word "in" :: rest => do
    let rest ← expect '[' rest
    let (values, rest) ← separated number (eat? (.mark ',')) rest
    let rest ← expect ']' rest
    pure (.inSet subject values, rest)
  | .word "in_range" :: rest => do
    let (first, rest) ← number rest
    let rest ← expect '-' rest
    let (last, rest) ← number rest
    pure (.inRange subject first last, rest)
  | .comparison operator :: rest => do
    let (object, rest) ← operand rest
    pure (.compare subject operator object, rest)
  | rest => stop .expectedComparison rest

/-- Reads a comparison, or a condition in parentheses. -/
def atom (inner : Reader Fault Token Condition) : Reader Fault Token Condition
  | .mark '(' :: rest => do
    let (condition, rest) ← inner rest
    let rest ← expect ')' rest
    pure (condition, rest)
  | tokens => comparison tokens

/-- One part is itself; more are joined. -/
def join (combine : List Condition → Condition) : List Condition → Condition
  | [part] => part
  | parts => combine parts

/-- Reads parts with a keyword between them. -/
def chain (keyword : String) (combine : List Condition → Condition)
    (part : Reader Fault Token Condition) : Reader Fault Token Condition := fun tokens => do
  let (parts, rest) ← separated part (eat? (.word keyword)) tokens
  pure (join combine parts, rest)

/-- Reads a condition in which parentheses are nested at most `depth` deep. -/
def nested : Nat → Reader Fault Token Condition
  | 0 => chain "or" .any (chain "and" .all comparison)
  | depth + 1 => chain "or" .any (chain "and" .all (atom (nested depth)))

/-- Reads a condition.  Every parenthesis takes a token, so the number of
    tokens bounds the depth. -/
def condition : Reader Fault Token Condition := fun tokens =>
  nested tokens.length tokens

/-- Reads a condition up to the end of the tokens. -/
def whole (tokens : List Token) : Except (Stop Fault Token) Condition := do
  let (condition, rest) ← condition tokens
  match rest with
  | [] => pure condition
  | rest => stop .unexpectedToken rest

end Parser

/-- The position of the token in front of which reading stopped; after the
    last one it is the end of the text. -/
def stopPosition (total : Nat) (lexemes : List Lexeme) (rest : List Token) : Nat :=
  match lexemes.drop (lexemes.length - rest.length) with
  | [] => total
  | lexeme :: _ => lexeme.position

/-- Reads a condition.  Every character that can come before an error is
    ASCII, so positions count characters and bytes alike. -/
def parse (text : String) : Except ParseError Condition :=
  let s := text.toList
  match Token.scan s.length s with
  | .error stopped => .error ⟨s.length - stopped.rest.length, stopped.cause⟩
  | .ok lexemes =>
    match Parser.whole (lexemes.map Lexeme.token) with
    | .error stopped => .error ⟨stopPosition s.length lexemes stopped.rest, stopped.cause⟩
    | .ok condition => .ok condition

end IsaCodec.Condition
