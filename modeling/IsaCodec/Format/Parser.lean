import IsaCodec.Format.Basic
import IsaCodec.Reading
import IsaCodec.Text.White
import IsaCodec.Text.Number

/-! # Reading encoding formats

    The grammar, with ASCII blanks allowed between any two lexemes:

    * format: elements separated by `,`
    * element: segments separated by `|`
    * segment: pattern, then optionally `:` and a field name, then
      optionally `[`, ranges separated by `,`, and `]`
    * range: bit number, then optionally `:` and a bit number

    A pattern is a run of `0`, `1` and `x`; a name is a run of letters,
    digits and underscores that does not start with a digit; a bit number is
    a decimal numeral below `2 ^ 32`. -/

namespace IsaCodec

namespace Format

/-- Why a text that is not blank is no format. -/
inductive Fault where
  | expectedPattern
  | expectedName
  | expectedBitNumber
  | bitNumberTooBig (digits : String)
  /-- The list of ranges is not closed. -/
  | expectedBracket
  /-- The text goes on after a complete format. -/
  | unexpectedCharacter (c : Char)
  deriving DecidableEq

/-- Wording of the fault. -/
def Fault.message : Fault → String
  | expectedPattern => "expected bit pattern"
  | expectedName => "expected field name"
  | expectedBitNumber => "expected bit number"
  | bitNumberTooBig digits => "bit number " ++ digits ++ " is too big"
  | expectedBracket => "expected ']'"
  | unexpectedCharacter c => "unexpected character '" ++ String.singleton c ++ "'"

/-- Why a text is no format. -/
inductive ParseError where
  /-- The text is empty or blank. -/
  | empty
  /-- The text is wrong at a position. -/
  | malformed (position : Nat) (fault : Fault)
  deriving DecidableEq

namespace Parser

open Reader (stop separated)

/-- The text from its first character that is no blank on. -/
def skipBlanks (s : List Char) : List Char :=
  s.dropWhile Text.isBlank

/-- The rest after blanks and the character `c`, if it comes next. -/
def eat? (c : Char) (s : List Char) : Option (List Char) :=
  match skipBlanks s with
  | [] => none
  | d :: rest => if d = c then some rest else none

/-- A character of a field name. -/
def isNameChar (c : Char) : Bool :=
  c.isAlphanum || c == '_'

/-- Reads a bit pattern. -/
def pattern : Reader Fault Char (List PatternBit) := fun s =>
  let s := skipBlanks s
  let isBit := fun c => (PatternBit.ofChar? c).isSome
  match (s.takeWhile isBit).filterMap PatternBit.ofChar? with
  | [] => stop .expectedPattern s
  | bits => .ok (bits, s.dropWhile isBit)

/-- Reads a field name. -/
def name : Reader Fault Char String := fun s =>
  let s := skipBlanks s
  let rest := s.dropWhile isNameChar
  match s.takeWhile isNameChar with
  | [] => stop .expectedName rest
  | c :: cs => if c.isDigit then stop .expectedName rest else .ok (String.ofList (c :: cs), rest)

/-- Reads a bit number. -/
def bitNumber : Reader Fault Char Nat := fun s =>
  let s := skipBlanks s
  let digits := s.takeWhile Char.isDigit
  let rest := s.dropWhile Char.isDigit
  match Text.numeral? 10 digits with
  | none => stop .expectedBitNumber s
  | some n =>
    if n < 1 <<< 32 then .ok (n, rest)
    else stop (.bitNumberTooBig (String.ofList digits)) rest

/-- Reads a range; a single number is a range of one bit. -/
def range : Reader Fault Char BitRange := fun s => do
  let (msb, rest) ← bitNumber s
  match eat? ':' rest with
  | none => pure (⟨msb, msb⟩, rest)
  | some rest => do
    let (lsb, rest) ← bitNumber rest
    pure (⟨msb, lsb⟩, rest)

/-- Reads the ranges after a field name, if there are any. -/
def ranges : Reader Fault Char (List BitRange) := fun s =>
  match eat? '[' s with
  | none => .ok ([], s)
  | some rest => do
    let (ranges, rest) ← separated range (eat? ',') rest
    match eat? ']' rest with
    | none => stop .expectedBracket (skipBlanks rest)
    | some rest => pure (ranges, rest)

/-- Reads a pattern with its field, if it has one. -/
def segment : Reader Fault Char Segment := fun s => do
  let (pattern, rest) ← pattern s
  match eat? ':' rest with
  | none => pure (⟨pattern, none, []⟩, rest)
  | some rest => do
    let (name, rest) ← name rest
    let (ranges, rest) ← ranges rest
    pure (⟨pattern, some name, ranges⟩, rest)

/-- Reads the segments of an element. -/
def element : Reader Fault Char Element := fun s => do
  let (segments, rest) ← separated segment (eat? '|') s
  pure (⟨segments⟩, rest)

/-- Reads a format up to the end of the text. -/
def format : Reader Fault Char Format := fun s => do
  let (elements, rest) ← separated element (eat? ',') s
  match skipBlanks rest with
  | [] => pure (⟨elements⟩, [])
  | c :: rest => stop (.unexpectedCharacter (leadingByte c)) (c :: rest)

end Parser

/-- Reads a format.  Every character that can come before an error is ASCII,
    so positions count characters and bytes alike. -/
def parse (text : String) : Except ParseError Format :=
  let s := text.toList
  if (Parser.skipBlanks s).isEmpty then .error .empty
  else
    match Parser.format s with
    | .ok (format, _) => .ok format
    | .error stopped => .error (.malformed (s.length - stopped.rest.length) stopped.cause)

end Format

end IsaCodec
