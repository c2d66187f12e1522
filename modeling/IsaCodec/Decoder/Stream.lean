import IsaCodec.Decoder.Bytes

/-! # Decoding streams

    A byte stream is decoded one instruction at a time.  Each step takes the
    first instruction at the start of the bytes and moves the address by its
    length.  A step that finds nothing, or fails, leaves the address. -/

namespace IsaCodec

/-- A decoder at an address. -/
structure Stream where
  decoder : Decoder
  address : Nat

namespace Stream

/-- Moves the address by so many bytes. -/
def skip (stream : Stream) (count : Nat) : Stream :=
  { stream with address := stream.address + count }

/-- Decodes one instruction, and gives what came of it and the stream after
    it.  The conditions of all instructions are evaluated, also of those that
    are declared after the first match. -/
def decode (stream : Stream) (bytes : List Byte) :
    Traced ConditionError (Option Decoded) × Stream :=
  let first := do
    let found ← stream.decoder.decodeBytes bytes
    pure found.head?
  match first.outcome with
  | .error _ => (first, stream)
  | .ok none => (first, stream)
  | .ok (some decoded) => (first, stream.skip decoded.byteLen)

/-- What an attempt to decode one instruction returns. -/
def result (stream : Stream) (bytes : List Byte) : Except ConditionError (Option Decoded) :=
  (stream.decode bytes).1.outcome

/-- The stream after an attempt to decode one instruction. -/
def next (stream : Stream) (bytes : List Byte) : Stream :=
  (stream.decode bytes).2

end Stream

namespace Decoder

/-- Number of bytes at the start that are instructions back to back. -/
def decodeLen (decoder : Decoder) (bytes : List Byte) : Traced ConditionError Nat :=
  if bytes.isEmpty then pure 0
  else do
    match ← decoder.decodeBytes bytes with
    | [] => pure 0
    | first :: _ =>
      if _h : 0 < first.byteLen ∧ first.byteLen ≤ bytes.length then
        let rest ← decoder.decodeLen (bytes.drop first.byteLen)
        pure (first.byteLen + rest)
      else pure 0
termination_by bytes.length
decreasing_by simp only [List.length_drop]; omega

end Decoder

end IsaCodec
