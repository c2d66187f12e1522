import IsaCodec.Condition.Basic
import IsaCodec.Condition.Error
import IsaCodec.Reading
import IsaCodec.Text.White
import IsaCodec.Text.Number

/-! # Condition tokens

    A condition's text is cut into tokens by longest match, with ASCII blanks
    between them skipped.  A word is a run of letters, digits and underscores;
    one that starts with a digit has to be a numeral: decimal, or hexadecimal
    after `0x` or `0X`, or binary after `0b` or `0B`. -/

namespace IsaCodec.Condition

/-- A token of a condition. -/
inductive Token where
  /-- A name or a keyword. -/
  | word (text : String)
  | number (value : Code)
  | comparison (operator : Comparison)
  /-- One of the marks `(`, `)`, `[`, `]`, `,` and `-`. -/
  | mark (c : Char)
  deriving DecidableEq

/-- A token and the number of characters before it. -/
structure Lexeme where
  position : Nat
  token : Token
  deriving DecidableEq

namespace Token

open Reader (stop)

/-- A character that is a token by itself. -/
def isMark (c : Char) : Bool :=
  c == '(' || c == ')' || c == '[' || c == ']' || c == ',' || c == '-'

/-- A character of a word. -/
def isWordChar (c : Char) : Bool :=
  c.isAlphanum || c == '_'

/-- The comparison at the front of a text, and the rest. -/
def comparison? : List Char → Option (Comparison × List Char)
  | '=' :: '=' :: rest => some (.eq, rest)
  | '!' :: '=' :: rest => some (.ne, rest)
  | '<' :: '=' :: rest => some (.le, rest)
  | '>' :: '=' :: rest => some (.ge, rest)
  | '<' :: rest => some (.lt, rest)
  | '>' :: rest => some (.gt, rest)
  | _ => none

/-- The value of a word as a numeral. -/
def numeral? (word : List Char) : Option Code :=
  let value := match word with
    | '0' :: 'x' :: digits | '0' :: 'X' :: digits => Text.boundedNumeral? 16 64 digits
    | '0' :: 'b' :: digits | '0' :: 'B' :: digits => Text.boundedNumeral? 2 64 digits
    | digits => Text.boundedNumeral? 10 64 digits
  value.map (BitVec.ofNat 64)

/-- Reads the token that starts with a given character. -/
def read (c : Char) (s : List Char) : Except (Stop Fault Char) (Token × List Char) :=
  if isMark c then .ok (.mark c, s)
  else match comparison? (c :: s) with
  | some (operator, rest) => .ok (.comparison operator, rest)
  | none =>
    let word := c :: s.takeWhile isWordChar
    let rest := s.dropWhile isWordChar
    if c.isDigit then
      match numeral? word with
      | some value => .ok (.number value, rest)
      | none => stop (.invalidNumber (String.ofList word)) (c :: s)
    else if isWordChar c then .ok (.word (String.ofList word), rest)
    else stop (.unexpectedCharacter (leadingByte c)) (c :: s)

theorem length_comparison? {s rest : List Char} {operator : Comparison}
    (h : comparison? s = some (operator, rest)) : rest.length < s.length := by
  unfold comparison? at h
  split at h
  case h_7 => simp at h
  all_goals
    simp only [Option.some.injEq, Prod.mk.injEq] at h
    simp only [← h.2, List.length_cons]
    omega

theorem length_read {c : Char} {s rest : List Char} {token : Token}
    (h : read c s = .ok (token, rest)) : rest.length ≤ s.length := by
  have hdrop := (List.dropWhile_sublist (l := s) isWordChar).length_le
  unfold read at h
  split at h
  · simp_all
  · split at h
    · rename_i hcomparison
      have := length_comparison? hcomparison
      simp at this h
      obtain ⟨_, rfl⟩ := h
      omega
    · simp only [stop] at h
      grind

/-- Cuts the rest of a text of `total` characters into tokens. -/
def scan (total : Nat) : List Char → Except (Stop Fault Char) (List Lexeme)
  | [] => .ok []
  | c :: s =>
    if Text.isBlank c then scan total s
    else
      match h : read c s with
      | .error stopped => .error stopped
      | .ok (token, rest) => do
        let lexemes ← scan total rest
        pure (⟨total - (s.length + 1), token⟩ :: lexemes)
termination_by s => s.length
decreasing_by
  · simp
  · have := length_read h
    simp; omega

end Token

end IsaCodec.Condition
