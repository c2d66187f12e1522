/-! # Readers

    A reader takes items off the front of a list, characters of a text or
    tokens.  It gives a value and the rest, or says why and where it stopped.

    * **`Stop`** — the cause and the items that were not yet taken, from
      which the position of the error follows.
    * **`separated`** — one or more things with separators between them. -/

namespace IsaCodec

/-- Why reading stopped, and what was left then. -/
structure Stop (ε σ : Type) where
  cause : ε
  rest : List σ

/-- Takes a value off the front of a list. -/
abbrev Reader (ε σ α : Type) := List σ → Except (Stop ε σ) (α × List σ)

namespace Reader

variable {ε σ α : Type}

/-- Stops in front of `rest`. -/
def stop (cause : ε) (rest : List σ) : Except (Stop ε σ) α :=
  .error ⟨cause, rest⟩

/-- Reads items for as long as a separator follows, but at most `more` of
    them after the first.  The number of items of the input bounds those that
    can be read from it. -/
def separatedUpTo (item : Reader ε σ α) (separator : List σ → Option (List σ)) :
    Nat → Reader ε σ (List α)
  | 0, input => do
    let (x, rest) ← item input
    pure ([x], rest)
  | more + 1, input => do
    let (x, rest) ← item input
    match separator rest with
    | none => pure ([x], rest)
    | some rest => do
      let (xs, rest) ← separatedUpTo item separator more rest
      pure (x :: xs, rest)

/-- Reads one or more items with separators between them. -/
def separated (item : Reader ε σ α) (separator : List σ → Option (List σ)) :
    Reader ε σ (List α) :=
  fun input => separatedUpTo item separator input.length input

end Reader

/-- The first byte of a character's UTF-8 form, shown as the character with
    that code.  An ASCII character is its own first byte. -/
def leadingByte (c : Char) : Char :=
  Char.ofNat (((String.utf8EncodeChar c).headD 0).toNat)

end IsaCodec
