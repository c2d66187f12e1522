import IsaCodec.Code
import IsaCodec.Format.Basic

/-! # Fixed bits

    Which bits of a code an instruction fixes, and to what. -/

namespace IsaCodec

/-- The bits that are fixed, and the values that they are fixed to. -/
structure FixedBits where
  mask : Code
  bits : Code
  deriving DecidableEq

namespace FixedBits

/-- No bit is fixed. -/
def none : FixedBits := ⟨0, 0⟩

/-- Moves the bits up by one and puts a pattern bit into the free place. -/
def push (fixed : FixedBits) (bit : PatternBit) : FixedBits :=
  match bit with
  | .zero => ⟨fixed.mask <<< 1 ||| 1, fixed.bits <<< 1⟩
  | .one => ⟨fixed.mask <<< 1 ||| 1, fixed.bits <<< 1 ||| 1⟩
  | .any => ⟨fixed.mask <<< 1, fixed.bits <<< 1⟩

/-- The fixed bits of a pattern, its last bit the least significant one. -/
def ofPattern (pattern : List PatternBit) : FixedBits :=
  pattern.foldl push none

/-- Does a code have the fixed bits? -/
def isMatch (fixed : FixedBits) (code : Code) : Bool :=
  code &&& fixed.mask == fixed.bits

/-- Is every bit that is set also fixed? -/
def isCovered (fixed : FixedBits) : Bool :=
  fixed.bits &&& ~~~fixed.mask == 0

end FixedBits

end IsaCodec
