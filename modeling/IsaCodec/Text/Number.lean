/-! # Numerals

    Reading of unsigned numerals in a base up to 36.  Letters of either case
    stand for the digits from ten on. -/

namespace IsaCodec.Text

/-- The value of a digit or letter as a digit. -/
def digitValue? (c : Char) : Option Nat :=
  if '0' ≤ c ∧ c ≤ '9' then some (c.toNat - '0'.toNat)
  else if 'a' ≤ c ∧ c ≤ 'z' then some (c.toNat - 'a'.toNat + 10)
  else if 'A' ≤ c ∧ c ≤ 'Z' then some (c.toNat - 'A'.toNat + 10)
  else none

/-- The value of a digit below the base. -/
def digit? (base : Nat) (c : Char) : Option Nat :=
  (digitValue? c).filter (· < base)

/-- The value of digits that follow a numeral of the value `acc`. -/
def numeralFrom? (base acc : Nat) : List Char → Option Nat
  | [] => some acc
  | c :: rest =>
    match digit? base c with
    | none => none
    | some d => numeralFrom? base (base * acc + d) rest

/-- The value of a numeral: one or more digits below the base and nothing else. -/
def numeral? (base : Nat) (s : List Char) : Option Nat :=
  if s.isEmpty then none else numeralFrom? base 0 s

/-- The value of a numeral that is below `2 ^ bits`. -/
def boundedNumeral? (base bits : Nat) (s : List Char) : Option Nat :=
  (numeral? base s).filter (· < 1 <<< bits)

/-- A digit of base sixteen. -/
def isHexDigit (c : Char) : Bool :=
  (digit? 16 c).isSome

/-- Text as the decimal numeral of a number. -/
def decimal (n : Nat) : List Char :=
  Nat.toDigits 10 n

end IsaCodec.Text
