import IsaCodec.Proofs.Bytes.Assembly
import Mathlib.Data.Nat.Digits.Defs

/-! # Codes and strings of bytes

    A form of whole bytes makes a code of each string of as many bytes, and
    no code of two of them.  The proof has two halves.

    * **Numbers** — bytes are digits to the base 256, so strings of one length
      are told apart by their numbers, and each number below the bound has a
      string (`positional_injective`, `exists_positional_eq`).
    * **Arrangement** — bringing the most significant byte of each element to
      the front is undone by doing it again (`arrangeElements_involutive`).

    Between them stands `toNat_bigEndian`: a code is the number of its bytes,
    as long as there are no more than eight. -/

namespace IsaCodec

/-! ## Numbers to the base 256 -/

/-- The number whose digits to the base 256 are these bytes, the most significant one first. -/
def positional (bytes : List Byte) : Nat :=
  Nat.ofDigits 256 (bytes.reverse.map BitVec.toNat)

section positional

variable {a b bytes : List Byte}

@[simp] theorem positional_nil : positional [] = 0 := rfl

theorem positional_concat (bytes : List Byte) (byte : Byte) :
    positional (bytes ++ [byte]) = 256 * positional bytes + byte.toNat := by
  rw [positional, List.reverse_concat, List.map_cons, Nat.ofDigits_cons, Nat.add_comm]
  rfl

theorem lt_of_mem_digits {digit : Nat} (h : digit ∈ bytes.reverse.map BitVec.toNat) :
    digit < 256 := by
  obtain ⟨byte, -, rfl⟩ := List.mem_map.1 h
  exact byte.isLt

theorem positional_lt (bytes : List Byte) : positional bytes < 2 ^ (8 * bytes.length) := by
  have h := Nat.ofDigits_lt_base_pow_length (b := 256) (l := bytes.reverse.map BitVec.toNat)
    (by decide) fun _ => lt_of_mem_digits
  rwa [List.length_map, List.length_reverse, show 256 = 2 ^ 8 from rfl, ← Nat.pow_mul] at h

/-- Strings of one length have different numbers. -/
theorem positional_injective (hlength : a.length = b.length) (h : positional a = positional b) :
    a = b := by
  have hdigits := Nat.ofDigits_inj_of_len_eq (b := 256) (by decide) (by simpa using hlength)
    (fun _ => lt_of_mem_digits) (fun _ => lt_of_mem_digits) h
  exact List.reverse_inj.1 ((List.map_inj_right fun _ _ => BitVec.eq_of_toNat_eq).1 hdigits)

/-- Each number that is small enough has a string of bytes. -/
theorem exists_positional_eq {count n : Nat} (h : n < 2 ^ (8 * count)) :
    ∃ bytes : List Byte, bytes.length = count ∧ positional bytes = n := by
  induction count generalizing n with
  | zero => exact ⟨[], rfl, (Nat.lt_one_iff.1 h).symm⟩
  | succ count ih =>
    -- The last byte is the remainder, and the quotient has one byte less.
    have hquotient : n / 256 < 2 ^ (8 * count) := by
      rw [Nat.div_lt_iff_lt_mul (by decide)]
      rwa [Nat.mul_succ, Nat.pow_add] at h
    obtain ⟨bytes, hlength, hnumber⟩ := ih hquotient
    refine ⟨bytes ++ [BitVec.ofNat 8 n], by simp [hlength], ?_⟩
    rw [positional_concat, hnumber, BitVec.toNat_ofNat]
    exact Nat.div_add_mod n 256

/-- The big-endian **word is the number**, if the bytes fit into the word. -/
theorem toNat_bigEndian (h : bytes.length ≤ 8) : (bigEndian bytes).toNat = positional bytes := by
  induction bytes using List.reverseRecOn with
  | nil => rfl
  | append_singleton bytes byte ih =>
    rw [List.length_append, List.length_singleton] at h
    have hnumber := ih (by omega)
    have hbound : positional bytes * 2 ^ 8 < 2 ^ 64 := by
      have hlt := positional_lt bytes
      have hle : 2 ^ (8 * bytes.length) ≤ 2 ^ 56 := Nat.pow_le_pow_right (by decide) (by omega)
      omega
    have hbyte : byte.toNat < 2 ^ 8 := byte.isLt
    rw [bigEndian_concat, BitVec.toNat_or, BitVec.toNat_shiftLeft, hnumber, Nat.shiftLeft_eq,
      Nat.mod_eq_of_lt hbound, BitVec.toNat_setWidth, Nat.mod_eq_of_lt (by omega),
      positional_concat, Nat.mul_comm, ← Nat.two_pow_add_eq_or_of_lt hbyte]

end positional

/-! ## Arrangement -/

@[simp] theorem ByteOrder.arrange_arrange (order : ByteOrder) (bytes : List Byte) :
    order.arrange (order.arrange bytes) = bytes := by
  cases order
  · exact List.reverse_reverse bytes
  · rfl

/-- To arrange the bytes of elements twice is to **leave them** as they are. -/
theorem arrangeElements_involutive {order : ByteOrder} {size count : Nat} {bytes : List Byte}
    (h : bytes.length = size * count) :
    arrangeElements order size count (arrangeElements order size count bytes) = bytes := by
  induction count generalizing bytes with
  | zero => exact (List.eq_nil_of_length_eq_zero h).symm
  | succ count ih =>
    rw [Nat.mul_succ] at h
    have hfirst : (order.arrange (bytes.take size)).length = size := by
      rw [order.length_arrange, List.length_take]
      omega
    have hrest : (bytes.drop size).length = size * count := by
      rw [List.length_drop]
      omega
    rw [arrangeElements, arrangeElements, List.take_left' hfirst, List.drop_left' hfirst,
      order.arrange_arrange, ih hrest, List.take_append_drop]

/-- No bytes are added. -/
theorem length_arrangeElements_le (order : ByteOrder) (size count : Nat) (bytes : List Byte) :
    (arrangeElements order size count bytes).length ≤ bytes.length := by
  induction count generalizing bytes with
  | zero => exact Nat.zero_le _
  | succ count ih =>
    have hrest := ih (bytes.drop size)
    rw [List.length_drop] at hrest
    rw [arrangeElements, List.length_append, order.length_arrange, List.length_take]
    omega

/-! ## Forms -/

namespace Form

/-- The elements are whole bytes, and there are at most 64 bits in all. -/
structure HasWholeBytes (form : Form) : Prop where
  elementBitLen_pos : 0 < form.elementBitLen
  whole : form.elementBitLen % 8 = 0
  elementCount_pos : 1 ≤ form.elementCount
  width : form.elementBitLen * form.elementCount ≤ 64

variable {form : Form} {order : ByteOrder} {bytes : List Byte} {code : Code}

theorem HasWholeBytes.fitsWord (h : form.HasWholeBytes) : form.FitsWord :=
  ⟨Nat.mul_pos h.elementBitLen_pos h.elementCount_pos, h.width⟩

theorem HasWholeBytes.byteLen_le (h : form.HasWholeBytes) : form.byteLen ≤ 8 := by
  have hbits := mul_byteLen h.whole
  have hwidth := h.fitsWord.bitLen_le
  omega

/-- Strings of the length of the form are arranged in a one-to-one way. -/
theorem HasWholeBytes.arranged_arranged (h : form.HasWholeBytes) (order : ByteOrder)
    (hlength : bytes.length = form.byteLen) :
    form.arranged order (form.arranged order bytes) = bytes :=
  arrangeElements_involutive (hlength.trans (mul_eq_byteLen h.fitsWord.isCounted h.whole).symm)

/-- An assembled code is the **number** of the arranged bytes. -/
theorem HasWholeBytes.assemble_eq_some_iff (h : form.HasWholeBytes) :
    assemble bytes order form = some code ↔
      form.byteLen ≤ bytes.length ∧ code.toNat = positional (form.arranged order bytes) := by
  rw [h.fitsWord.assemble_eq_some]
  simp only [h.whole, true_and]
  refine and_congr_right fun hlength => ?_
  have hfits : (form.arranged order bytes).length ≤ 8 := by
    rw [length_arranged h.fitsWord.isCounted h.whole hlength]
    exact h.byteLen_le
  rw [← toNat_bigEndian hfits, BitVec.toNat_inj]

/-- In the big-endian order the leading bytes stay where they are. -/
theorem arranged_big (hcounted : form.IsCounted) (hwhole : form.elementBitLen % 8 = 0) :
    form.arranged .big bytes = bytes.take form.byteLen := by
  rw [arranged, arrangeElements_big, mul_eq_byteLen hcounted hwhole]

/-- Only the leading bytes matter, also if there are too few of them. -/
theorem assemble_take (hcounted : form.IsCounted) (bytes : List Byte) (order : ByteOrder) :
    assemble bytes order form = assemble (bytes.take form.byteLen) order form := by
  by_cases hlength : form.byteLen ≤ bytes.length
  · have hleading :=
      assemble_eq_ite hcounted (bytes.take form.byteLen) (bytes.drop form.byteLen) order
    rw [List.take_append_drop, List.length_take, if_pos (by omega)] at hleading
    exact hleading.symm
  · rw [List.take_of_length_le (by omega)]

/-- The codes of a form stand for strings of bytes, one to one. -/
structure IsByteCoded (form : Form) : Prop where
  /-- There is a code if there are enough bytes. -/
  isSome_iff : ∀ bytes order, (assemble bytes order form).isSome ↔ form.byteLen ≤ bytes.length
  /-- It has no bits beyond the form. -/
  lt : ∀ bytes order code, assemble bytes order form = some code → code.toNat < 2 ^ form.bitLen
  /-- Only the leading bytes matter. -/
  leading : ∀ bytes order,
    assemble bytes order form = assemble (bytes.take form.byteLen) order form
  /-- Each code is that of exactly one string. -/
  unique : ∀ order (code : Code), code.toNat < 2 ^ form.bitLen →
    ∃! bytes : List Byte, bytes.length = form.byteLen ∧ assemble bytes order form = some code
  /-- In the big-endian order the code is the number of the bytes, and the elements do not
      matter. -/
  big : ∀ bytes code, assemble bytes .big form = some code →
    code.toNat = positional (bytes.take form.byteLen)
  /-- In the little-endian order it is the number of the bytes after those of each element have
      been reversed. -/
  little : ∀ bytes, assemble bytes .little form = assemble (form.arranged .little bytes) .big form
  /-- A form with fewer elements of the same length has the leading bits of the code. -/
  align : ∀ wide : Form, wide.HasWholeBytes → wide.elementBitLen = form.elementBitLen →
    form.bitLen ≤ wide.bitLen → ∀ bytes order code, assemble bytes order wide = some code →
      assemble bytes order form = some (form.align code wide.bitLen)

section HasWholeBytes

variable (h : form.HasWholeBytes)
include h

theorem assemble_isSome_iff : (assemble bytes order form).isSome ↔ form.byteLen ≤ bytes.length := by
  simp only [Option.isSome_iff_exists, assemble_eq_some h.fitsWord.isCounted, h.whole, true_and,
    exists_and_left, exists_eq, and_true]

theorem toNat_lt_of_assemble (hcode : assemble bytes order form = some code) :
    code.toNat < 2 ^ form.bitLen := by
  obtain ⟨hlength, hnumber⟩ := h.assemble_eq_some_iff.1 hcode
  have hlt := positional_lt (form.arranged order bytes)
  rwa [← hnumber, length_arranged h.fitsWord.isCounted h.whole hlength, mul_byteLen h.whole] at hlt

/-- A code has a string: arrange the digits of its number. -/
theorem exists_assemble_eq (order : ByteOrder) (hcode : code.toNat < 2 ^ form.bitLen) :
    ∃ bytes : List Byte, bytes.length = form.byteLen ∧ assemble bytes order form = some code := by
  rw [← mul_byteLen h.whole] at hcode
  obtain ⟨digits, hlength, hnumber⟩ := exists_positional_eq hcode
  have hdigits : (form.arranged order digits).length = form.byteLen :=
    length_arranged h.fitsWord.isCounted h.whole (Nat.le_of_eq hlength.symm)
  refine ⟨form.arranged order digits, hdigits, h.assemble_eq_some_iff.2 ⟨?_, ?_⟩⟩
  · exact Nat.le_of_eq hdigits.symm
  · rw [h.arranged_arranged order hlength, hnumber]

/-- No two strings have the same code: they can be read off their arranged bytes. -/
theorem eq_of_assemble_eq {bytes' : List Byte} (hlength : bytes.length = form.byteLen)
    (hlength' : bytes'.length = form.byteLen) (hcode : assemble bytes order form = some code)
    (hcode' : assemble bytes' order form = some code) : bytes = bytes' := by
  obtain ⟨-, hnumber⟩ := h.assemble_eq_some_iff.1 hcode
  obtain ⟨-, hnumber'⟩ := h.assemble_eq_some_iff.1 hcode'
  have harranged : form.arranged order bytes = form.arranged order bytes' := by
    apply positional_injective _ (hnumber.symm.trans hnumber')
    rw [length_arranged h.fitsWord.isCounted h.whole (Nat.le_of_eq hlength.symm),
      length_arranged h.fitsWord.isCounted h.whole (Nat.le_of_eq hlength'.symm)]
  rw [← h.arranged_arranged order hlength, harranged, h.arranged_arranged order hlength']

theorem assemble_little :
    assemble bytes .little form = assemble (form.arranged .little bytes) .big form := by
  refine Option.ext fun code => ?_
  rw [h.fitsWord.assemble_eq_some, h.fitsWord.assemble_eq_some,
    arranged_big h.fitsWord.isCounted h.whole]
  refine and_congr_right fun hwhole => ?_
  by_cases hlength : form.byteLen ≤ bytes.length
  · have harranged : (form.arranged .little bytes).length = form.byteLen :=
      length_arranged h.fitsWord.isCounted hwhole hlength
    rw [harranged, List.take_of_length_le (Nat.le_of_eq harranged)]
    simp only [hlength, Nat.le_refl]
  · -- There are as few bytes after the arrangement.
    have hle : (form.arranged .little bytes).length ≤ bytes.length :=
      length_arrangeElements_le _ _ _ _
    simp only [hlength, Nat.not_le.2 (Nat.lt_of_le_of_lt hle (Nat.not_le.1 hlength)), false_and]

end HasWholeBytes

/-- **Assembly is a bijection** between the strings of a form's length and the codes below the
    form's bound, and respects the byte order. -/
theorem isByteCoded_of_hasWholeBytes (h : form.HasWholeBytes) : form.IsByteCoded where
  isSome_iff bytes order := assemble_isSome_iff h
  lt bytes order code hcode := toNat_lt_of_assemble h hcode
  leading bytes order := assemble_take h.fitsWord.isCounted bytes order
  unique order code hcode := by
    obtain ⟨bytes, hlength, hbytes⟩ := exists_assemble_eq h order hcode
    refine ⟨bytes, ⟨hlength, hbytes⟩, fun other hother => ?_⟩
    obtain ⟨hlength', hother⟩ := hother
    exact eq_of_assemble_eq h hlength' hlength hother hbytes
  big bytes code hcode := by
    obtain ⟨-, hnumber⟩ := h.assemble_eq_some_iff.1 hcode
    rw [hnumber, arranged_big h.fitsWord.isCounted h.whole]
  little bytes := assemble_little h
  align wide hwide hwidth hle bytes order code hcode :=
    assemble_align hwide.fitsWord h.fitsWord h.whole hle (.inr hwidth.symm) hcode

/-- Two elements of two bytes.  In the little-endian order the bytes of each element are reversed,
    but the first element stays the most significant one; alone it makes the code of a form with
    one such element. -/
theorem isByteCoded_code16x2 :
    HasWholeBytes ⟨16, 2⟩ ∧ IsByteCoded ⟨16, 2⟩ ∧
      assemble [0xe9, 0x2d, 0x40, 0x01] .big ⟨16, 2⟩ = some 0xe92d4001 ∧
      arranged ⟨16, 2⟩ .little [0xe9, 0x2d, 0x40, 0x01] = [0x2d, 0xe9, 0x01, 0x40] ∧
      assemble [0xe9, 0x2d, 0x40, 0x01] .little ⟨16, 2⟩ = some 0x2de90140 ∧
      assemble [0xe9, 0x2d, 0x40, 0x01] .little ⟨16, 1⟩ = some 0x2de9 := by
  have hwide : HasWholeBytes ⟨16, 2⟩ := ⟨by decide, by decide, by decide, by decide⟩
  have hnarrow : HasWholeBytes ⟨16, 1⟩ := ⟨by decide, by decide, by decide, by decide⟩
  have hlittle : assemble [0xe9, 0x2d, 0x40, 0x01] .little ⟨16, 2⟩ = some 0x2de90140 := by decide
  have hfirst := (isByteCoded_of_hasWholeBytes hnarrow).align _ hwide rfl (by decide) _ _ _ hlittle
  have haligned : align ⟨16, 1⟩ 0x2de90140 (bitLen ⟨16, 2⟩) = 0x2de9 := by decide
  rw [haligned] at hfirst
  exact ⟨hwide, isByteCoded_of_hasWholeBytes hwide, by decide, by decide, hlittle, hfirst⟩

end Form

end IsaCodec
