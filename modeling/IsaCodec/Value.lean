/-! # Values

    Structured data without a fixed type: what descriptions are written in,
    and what users attach to instructions and fields. -/

namespace IsaCodec

/-- A finite floating-point number of double precision, as its bits: those of
    the exponent are not all set. -/
structure FiniteFloat where
  bits : BitVec 64
  isFinite : bits.extractLsb' 52 11 ≠ BitVec.allOnes 11
  deriving DecidableEq

/-- A structured value. -/
inductive Value where
  | null
  | bool (value : Bool)
  /-- A number that was written as an integer. -/
  | number (value : Int)
  /-- A number that was written with a fraction or an exponent. -/
  | float (value : FiniteFloat)
  | string (value : String)
  | array (items : List Value)
  /-- Named members, in order. -/
  | object (members : List (String × Value))

namespace Value

instance : Inhabited Value := ⟨null⟩

/-- Is this the null value? -/
def isNull : Value → Bool
  | null => true
  | _ => false

/-- The value, unless it is null. -/
def present? (value : Value) : Option Value :=
  if value.isNull then none else some value

end Value

end IsaCodec
