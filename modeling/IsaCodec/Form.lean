import IsaCodec.Code

/-! # Forms

    The form of an instruction is the geometry of its encoding: so many
    elements of so many bits each.  The first element holds the most
    significant bits.  Instructions of different forms live in one
    instruction set; a code that is as wide as the widest of them is aligned
    to a narrower form by taking its leading bits.

    Bits are counted in words of 32 bits.  A compiled instruction has at most
    64 of them, but a form may be any pair of numbers, and the count of a
    large one wraps around.  A distance by which a code is shifted counts
    modulo 64. -/

namespace IsaCodec

/-- Element width and number of elements of an encoding. -/
structure Form where
  elementBitLen : Nat
  elementCount : Nat
  deriving DecidableEq

namespace Form

/-- Number of bits of an instruction of this form.  From `2 ^ 32` bits on it wraps around, or is an
    error where overflow is checked. -/
def bitLen (form : Form) : Nat :=
  form.elementBitLen * form.elementCount % UInt32.size

/-- There are not too many bits to count them. -/
def IsCounted (form : Form) : Prop :=
  form.elementBitLen * form.elementCount < UInt32.size

theorem bitLen_le (form : Form) : form.bitLen ≤ form.elementBitLen * form.elementCount :=
  Nat.mod_le _ _

theorem IsCounted.bitLen_eq {form : Form} (h : form.IsCounted) :
    form.bitLen = form.elementBitLen * form.elementCount :=
  Nat.mod_eq_of_lt h

/-- Number of bytes that an instruction of this form takes. -/
def byteLen (form : Form) : Nat :=
  (form.bitLen + 7) / 8

/-- The bits that a code of this form may have. -/
def codeMask (form : Form) : Code :=
  Code.lowMask form.bitLen

/-- The code of this form in the leading bits of a code of `codeBitLen` bits. -/
def align (form : Form) (code : Code) (codeBitLen : Nat) : Code :=
  (code >>> ((codeBitLen - form.bitLen) % 64)) &&& form.codeMask

@[simp] theorem align_and_codeMask (form : Form) (code : Code) (codeBitLen : Nat) :
    form.align code codeBitLen &&& form.codeMask = form.align code codeBitLen := by
  rw [align, BitVec.and_assoc, BitVec.and_self]

/-- The element that contains a bit of the form; bits are counted from the
    least significant one, elements from the most significant one. -/
def elementOf (form : Form) (bit : Nat) : Nat :=
  (form.bitLen - 1 - bit) / form.elementBitLen

/-- Text of the form, as in `code16x2`. -/
def text (form : Form) : String :=
  "code" ++ toString form.elementBitLen ++ "x" ++ toString form.elementCount

/-! ## Order -/

/-- Forms are ordered by element width, then by the number of elements. -/
instance : LT Form where
  lt a b := a.elementBitLen < b.elementBitLen ∨
    (a.elementBitLen = b.elementBitLen ∧ a.elementCount < b.elementCount)

theorem lt_iff {a b : Form} : a < b ↔ a.elementBitLen < b.elementBitLen ∨
    (a.elementBitLen = b.elementBitLen ∧ a.elementCount < b.elementCount) := Iff.rfl

instance : DecidableLT Form := fun a b =>
  inferInstanceAs (Decidable (a.elementBitLen < b.elementBitLen ∨
    (a.elementBitLen = b.elementBitLen ∧ a.elementCount < b.elementCount)))

theorem lt_trans {a b c : Form} (h : a < b) (h' : b < c) : a < c := by
  rw [lt_iff] at *; omega

theorem eq_of_not_lt {a b : Form} (h : ¬a < b) (h' : ¬b < a) : a = b := by
  rw [lt_iff] at h h'
  cases a; cases b
  simp only [mk.injEq] at *
  omega

end Form

end IsaCodec
