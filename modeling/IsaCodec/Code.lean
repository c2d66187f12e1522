/-! # Codes

    A code is a 64-bit word.  The same type holds instruction codes, masks,
    field values and immediates.  This module has the operations that the
    rest of the library needs on words: the mask of a run of low bits, the
    union of words, the replacement of a run of bits, the size of the storage
    unit that holds a number of bits, and hexadecimal text.  The bits of each
    result are given by a lemma on `getLsbD`. -/

namespace IsaCodec

/-- A 64-bit word: an instruction's code, a mask, a field value or an immediate. -/
abbrev Code := BitVec 64

namespace Code

/-! ## Low masks -/

/-- The word whose `len` least significant bits are set; all of them from 64 on. -/
def lowMask (len : Nat) : Code :=
  BitVec.allOnes 64 >>> (64 - len)

theorem getLsbD_lowMask (len i : Nat) :
    (lowMask len).getLsbD i = decide (i < len ∧ i < 64) := by
  simp only [lowMask, BitVec.getLsbD_ushiftRight, BitVec.getLsbD_allOnes, decide_eq_decide]
  omega

@[simp] theorem lowMask_zero : lowMask 0 = 0 := by decide

theorem getLsbD_lowMask_shiftLeft (len pos i : Nat) :
    (lowMask len <<< pos).getLsbD i = decide (pos ≤ i ∧ i < pos + len ∧ i < 64) := by
  simp only [BitVec.getLsbD_shiftLeft, getLsbD_lowMask]
  grind

/-! ## Unions -/

/-- The union of some words: their bitwise disjunction. -/
def union (words : List Code) : Code :=
  words.foldr (· ||| ·) 0

@[simp] theorem union_nil : union [] = 0 := rfl

@[simp] theorem union_cons (word : Code) (words : List Code) :
    union (word :: words) = word ||| union words := rfl

theorem getLsbD_union (words : List Code) (i : Nat) :
    (union words).getLsbD i = words.any (·.getLsbD i) := by
  induction words with
  | nil => simp
  | cons word words ih => simp [ih]

/-! ## Replacing bits -/

/-- Replaces the `len` bits of `value` from bit `pos` on by the low bits of `field`. -/
def deposit (value : Code) (pos len : Nat) (field : Code) : Code :=
  let mask := lowMask len <<< pos
  (value &&& ~~~mask) ||| ((field <<< pos) &&& mask)

theorem getLsbD_deposit (value : Code) (pos len : Nat) (field : Code) (i : Nat) :
    (deposit value pos len field).getLsbD i =
      if pos ≤ i ∧ i < pos + len then field.getLsbD (i - pos) && decide (i < 64)
      else value.getLsbD i := by
  simp only [deposit, BitVec.getLsbD_or, BitVec.getLsbD_and, BitVec.getLsbD_not,
    BitVec.getLsbD_shiftLeft, getLsbD_lowMask]
  have : 64 ≤ i → value.getLsbD i = false := BitVec.getLsbD_of_ge value i
  grind

/-! ## Storage -/

/-- Size in bits of the smallest storage unit, of 8, 16, 32 or 64 bits, that
    holds `bits` bits. -/
def storageBits (bits : Nat) : Nat :=
  if bits ≤ 8 then 8
  else if bits ≤ 16 then 16
  else if bits ≤ 32 then 32
  else 64

theorem le_storageBits {bits : Nat} (h : bits ≤ 64) : bits ≤ storageBits bits := by
  unfold storageBits; grind

/-! ## Text -/

/-- Lowercase hexadecimal digits without leading zeros. -/
def hexDigits (word : Code) : List Char :=
  Nat.toDigits 16 word.toNat

/-- Hexadecimal text, as in `0x1f`. -/
def hex (word : Code) : String :=
  String.ofList ('0' :: 'x' :: word.hexDigits)

/-- Hexadecimal text with as many zeros after `0x` as fill `width` characters. -/
def hexPadded (width : Nat) (word : Code) : String :=
  let digits := word.hexDigits
  String.ofList ('0' :: 'x' :: (List.replicate (width - 2 - digits.length) '0' ++ digits))

end Code

end IsaCodec
