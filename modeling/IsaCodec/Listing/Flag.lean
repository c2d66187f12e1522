import IsaCodec.Text.White

/-! # Flags

    Words of a comment that start with `+` or `-` set or clear a flag. -/

namespace IsaCodec.Listing

/-- A flag and whether it is set. -/
structure Flag where
  name : String
  isSet : Bool
  deriving DecidableEq

/-- The flag that a word sets or clears, if it does. -/
def Flag.ofWord? : List Char → Option Flag
  | '+' :: name => some ⟨String.ofList name, true⟩
  | '-' :: name => some ⟨String.ofList name, false⟩
  | _ => none

/-- The flags of a comment in order. -/
def flags (comment : String) : List Flag :=
  (Text.words comment.toList).filterMap Flag.ofWord?

end IsaCodec.Listing
