import IsaCodec.Code
import IsaCodec.Format.Parser

/-! # Layout errors

    What can be wrong with the bit layout of an instruction, or with values
    and masks that are checked against it, and the wording of each fault. -/

namespace IsaCodec

/-- What is wrong with the layout of an instruction. -/
inductive LayoutFault where
  /-- The text is no format. -/
  | format (error : Format.ParseError)
  /-- An element is not as long as the first one. -/
  | inconsistentElements (first other : Nat)
  /-- The instruction is longer than 64 bits. -/
  | width (bits : Nat)
  /-- A range is reversed or reaches beyond a 64-bit value. -/
  | range (field : String) (msb lsb : Nat)
  /-- The ranges of a segment do not have as many bits as its pattern. -/
  | rangeWidth (field : String) (bits ranges : Nat)
  /-- Two ranges of a field share a bit of its value. -/
  | overlap (field : String) (bit : Nat)
  /-- Only some of a field's segments have ranges. -/
  | mixedRanges (field : String)
  | undefinedField (field : String)
  /-- The value has a bit that the field does not have. -/
  | fieldValue (field : String) (value : Code)
  /-- A bit is fixed to one that the mask does not fix. -/
  | maskInvariant (mask bits : Code)
  deriving DecidableEq

/-- Wording of the fault. -/
def LayoutFault.message : LayoutFault → String
  | format .empty => "empty encoding"
  | format (.malformed position fault) =>
    "encoding syntax error at " ++ toString position ++ ": " ++ fault.message
  | inconsistentElements first other =>
    "encoding elements must have the same bit length, " ++ toString first ++ " != " ++
      toString other
  | width bits => "encoding is " ++ toString bits ++ " bits long, at most 64 supported"
  | range field msb lsb =>
    "invalid range [" ++ toString msb ++ ":" ++ toString lsb ++ "] of field \"" ++ field ++ "\""
  | rangeWidth field bits ranges =>
    "field \"" ++ field ++ "\" token has " ++ toString bits ++ " bits but its ranges cover " ++
      toString ranges ++ " bits"
  | overlap field bit =>
    "bit " ++ toString bit ++ " of field \"" ++ field ++ "\" is defined twice"
  | mixedRanges field =>
    "field \"" ++ field ++ "\" mixes tokens with and without explicit ranges"
  | undefinedField field => "field \"" ++ field ++ "\" is not defined"
  | fieldValue field value =>
    "value " ++ value.hex ++ " does not fit into field \"" ++ field ++ "\""
  | maskInvariant mask bits =>
    "fixed bits " ++ bits.hex ++ " are not covered by fixed bit mask " ++ mask.hex

/-- A layout fault and the instruction that has it. -/
structure LayoutError where
  instruction : String
  fault : LayoutFault
  deriving DecidableEq

/-- Wording of the error. -/
def LayoutError.message (error : LayoutError) : String :=
  error.instruction ++ ": " ++ error.fault.message

end IsaCodec
