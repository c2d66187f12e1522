import IsaCodec.Bytes
import Mathlib.Data.List.Induction

/-! # Codes of byte strings

    A code is assembled element by element, and each element in the byte
    order.  If the form fits into a word, this can be put differently: the
    bytes are first arranged so that the most significant byte of each element
    comes first, and the code is then the big-endian number of all of them,
    so that it no longer matters where one element ends and the next one
    begins.

    * **`assemble_eq_some`** — when there is a code, and which one it is, in
      any form whose bits can be counted.
    * **`assemble_eq_ite`** — bytes after those of the form do not matter.
    * **`Form.FitsWord.assemble_eq_some`** — the code as a number.
    * **`exists_arranged_append`** — the arranged bytes of a form start with
      those of a narrower form, in the big-endian order or if both forms have
      elements of one width.
    * **`assemble_align`** — so the code of the narrower form is in the leading
      bits of the code of the wider one. -/

namespace IsaCodec

/-! ## Big-endian numbers -/

@[simp] theorem bigEndian_nil : bigEndian [] = 0 := rfl

theorem bigEndian_concat (bytes : List Byte) (byte : Byte) :
    bigEndian (bytes ++ [byte]) = bigEndian bytes <<< 8 ||| byte.setWidth 64 := by
  simp [bigEndian]

/-- Bytes in front of others move the number up. -/
theorem bigEndian_append (front back : List Byte) :
    bigEndian (front ++ back) = bigEndian front <<< (8 * back.length) ||| bigEndian back := by
  -- The fold starts at the front, so the bytes at the back are taken away one by one.
  induction back using List.reverseRecOn with
  | nil => simp
  | append_singleton back byte ih =>
    rw [← List.append_assoc, bigEndian_concat, bigEndian_concat, ih, List.length_append,
      List.length_singleton, Nat.mul_add, BitVec.shiftLeft_or_distrib, BitVec.or_assoc,
      BitVec.shiftLeft_add]

/-- The number has no bit above its bytes. -/
theorem getLsbD_bigEndian_of_le {bytes : List Byte} {i : Nat} (hi : 8 * bytes.length ≤ i) :
    (bigEndian bytes).getLsbD i = false := by
  induction bytes using List.reverseRecOn generalizing i with
  | nil => simp
  | append_singleton bytes byte ih =>
    rw [List.length_append, List.length_singleton] at hi
    rw [bigEndian_concat, BitVec.getLsbD_or, BitVec.getLsbD_shiftLeft, ih (by omega),
      BitVec.getLsbD_setWidth, BitVec.getLsbD_of_ge byte i (by omega)]
    simp

/-! ## Arranged bytes -/

/-- Bytes in an order, with the most significant one brought to the front. -/
def ByteOrder.arrange : ByteOrder → List Byte → List Byte
  | .big, bytes => bytes
  | .little, bytes => bytes.reverse

theorem ByteOrder.number_eq (order : ByteOrder) (bytes : List Byte) :
    order.number bytes = bigEndian (order.arrange bytes) := by
  cases order <;> rfl

@[simp] theorem ByteOrder.length_arrange (order : ByteOrder) (bytes : List Byte) :
    (order.arrange bytes).length = bytes.length := by
  cases order
  · exact List.length_reverse
  · rfl

/-- The bytes of so many elements, each with its most significant byte first. -/
def arrangeElements (order : ByteOrder) (size : Nat) : Nat → List Byte → List Byte
  | 0, _ => []
  | count + 1, bytes =>
    order.arrange (bytes.take size) ++ arrangeElements order size count (bytes.drop size)

section arrange

variable {order : ByteOrder} {size count : Nat} {bytes : List Byte}

theorem length_arrangeElements (h : size * count ≤ bytes.length) :
    (arrangeElements order size count bytes).length = size * count := by
  induction count generalizing bytes with
  | zero => rfl
  | succ count ih =>
    rw [Nat.mul_succ] at h ⊢
    rw [arrangeElements, List.length_append, order.length_arrange, List.length_take,
      ih (by rw [List.length_drop]; omega)]
    omega

/-- In the big-endian order the bytes stay where they are. -/
theorem arrangeElements_big :
    arrangeElements .big size count bytes = bytes.take (size * count) := by
  induction count generalizing bytes with
  | zero => rfl
  | succ count ih =>
    rw [arrangeElements, ih, Nat.mul_succ, Nat.add_comm, List.take_add]
    rfl

/-- The first elements are arranged alike, whether or not more of them follow. -/
theorem arrangeElements_add (more : Nat) :
    arrangeElements order size (count + more) bytes =
      arrangeElements order size count bytes ++
        arrangeElements order size more (bytes.drop (size * count)) := by
  induction count generalizing bytes with
  | zero => simp [arrangeElements]
  | succ count ih =>
    rw [Nat.succ_add, arrangeElements, arrangeElements, ih, List.append_assoc, List.drop_drop,
      Nat.mul_succ, Nat.add_comm size]

end arrange

/-! ## Elements -/

/-- The elements that bytes hold, put after those of a code. -/
def joinElements (order : ByteOrder) (elementBitLen : Nat) (code : Code) : Nat → List Byte → Code
  | 0, _ => code
  | count + 1, bytes =>
    let element := order.number (bytes.take (elementBitLen / 8))
    joinElements order elementBitLen (appendElement elementBitLen code element) count
      (bytes.drop (elementBitLen / 8))

theorem ByteReader.number?_eq (reader : ByteReader) (order : ByteOrder) (size : Nat) :
    reader.number? order size =
      if reader.tail.length < size then none
      else some (order.number (reader.tail.take size), reader.advance size) := by
  have hremaining : reader.remaining = reader.tail.length := List.length_drop.symm
  unfold number? read?
  rw [hremaining]
  split <;> rfl

/-- The bytes have to be enough for all elements. -/
theorem assembleElements_eq (order : ByteOrder) (elementBitLen : Nat) (code : Code) (count : Nat)
    (reader : ByteReader) :
    assembleElements order elementBitLen code count reader =
      if elementBitLen / 8 * count ≤ reader.tail.length then
        some (joinElements order elementBitLen code count reader.tail)
      else none := by
  induction count generalizing code reader with
  | zero => simp [assembleElements, joinElements]
  | succ count ih =>
    have htail : (reader.advance (elementBitLen / 8)).tail =
        reader.tail.drop (elementBitLen / 8) := by
      rw [ByteReader.tail, ByteReader.tail, List.drop_drop]
      rfl
    rw [assembleElements, reader.number?_eq, Nat.mul_succ]
    by_cases hshort : reader.tail.length < elementBitLen / 8
    · rw [if_pos hshort, if_neg (by omega)]
      rfl
    · rw [if_neg hshort]
      show assembleElements order elementBitLen (appendElement elementBitLen code _) count
        (reader.advance (elementBitLen / 8)) = _
      rw [ih, htail, List.length_drop]
      by_cases hlength : elementBitLen / 8 * count ≤ reader.tail.length - elementBitLen / 8
      · rw [if_pos hlength, if_pos (by omega)]
        rfl
      · rw [if_neg hlength, if_neg (by omega)]

/-- Bytes after the elements do not matter. -/
theorem joinElements_append {order : ByteOrder} {elementBitLen count : Nat} {bytes : List Byte}
    (h : elementBitLen / 8 * count ≤ bytes.length) (more : List Byte) (code : Code) :
    joinElements order elementBitLen code count (bytes ++ more) =
      joinElements order elementBitLen code count bytes := by
  induction count generalizing bytes code with
  | zero => rfl
  | succ count ih =>
    rw [Nat.mul_succ] at h
    have hsize : elementBitLen / 8 ≤ bytes.length := by omega
    have hrest : elementBitLen / 8 * count ≤ (bytes.drop (elementBitLen / 8)).length := by
      rw [List.length_drop]
      omega
    rw [joinElements, joinElements, List.take_append_of_le_length hsize,
      List.drop_append_of_le_length hsize, ih hrest]

/-- A word has no bit left after it was moved up by its length, so elements of this length are no
    exception. -/
theorem appendElement_eq {elementBitLen : Nat} (h : elementBitLen ≤ 64) (code element : Code) :
    appendElement elementBitLen code element = code <<< elementBitLen ||| element := by
  unfold appendElement
  by_cases hlen : elementBitLen = 64
  · rw [if_pos hlen, hlen, BitVec.shiftLeft_eq_zero (Nat.le_refl 64), BitVec.zero_or]
  · rw [if_neg hlen, Nat.mod_eq_of_lt (by omega)]

/-- Elements that are no longer than a word make up the **number of the arranged bytes**. -/
theorem joinElements_eq {order : ByteOrder} {elementBitLen count : Nat} {bytes : List Byte}
    (hwhole : elementBitLen % 8 = 0) (hword : elementBitLen ≤ 64)
    (h : elementBitLen / 8 * count ≤ bytes.length) (code : Code) :
    joinElements order elementBitLen code count bytes =
      code <<< (elementBitLen * count) |||
        bigEndian (arrangeElements order (elementBitLen / 8) count bytes) := by
  have hbits : elementBitLen = 8 * (elementBitLen / 8) := by omega
  induction count generalizing bytes code with
  | zero => simp [joinElements, arrangeElements]
  | succ count ih =>
    rw [Nat.mul_succ] at h
    have hrest : elementBitLen / 8 * count ≤ (bytes.drop (elementBitLen / 8)).length := by
      rw [List.length_drop]
      omega
    have hlength : 8 * (arrangeElements order (elementBitLen / 8) count
        (bytes.drop (elementBitLen / 8))).length = elementBitLen * count := by
      rw [length_arrangeElements hrest, ← Nat.mul_assoc, ← hbits]
    rw [joinElements, ih hrest, appendElement_eq hword, order.number_eq, arrangeElements,
      bigEndian_append, hlength, BitVec.shiftLeft_or_distrib, BitVec.or_assoc,
      ← BitVec.shiftLeft_add, Nat.mul_succ, Nat.add_comm (elementBitLen * count)]

/-! ## Forms -/

namespace Form

/-- The bytes of an instruction of this form, each element with its most significant byte first. -/
def arranged (form : Form) (order : ByteOrder) (bytes : List Byte) : List Byte :=
  arrangeElements order (form.elementBitLen / 8) form.elementCount bytes

/-- The elements of this form that the leading bytes hold, put together. -/
def joined (form : Form) (order : ByteOrder) (bytes : List Byte) : Code :=
  joinElements order form.elementBitLen 0 form.elementCount bytes

/-- An instruction of this form has at least one bit, and no more than a word. -/
structure FitsWord (form : Form) : Prop where
  pos : 0 < form.elementBitLen * form.elementCount
  width : form.elementBitLen * form.elementCount ≤ 64

namespace FitsWord

variable {form : Form} (h : form.FitsWord)
include h

theorem isCounted : form.IsCounted :=
  Nat.lt_of_le_of_lt h.width (by decide)

theorem bitLen_pos : 0 < form.bitLen :=
  h.isCounted.bitLen_eq ▸ h.pos

theorem bitLen_le : form.bitLen ≤ 64 :=
  h.isCounted.bitLen_eq ▸ h.width

theorem elementBitLen_le : form.elementBitLen ≤ 64 :=
  Nat.le_trans (Nat.le_mul_of_pos_right _ (Nat.pos_of_mul_pos_left h.pos)) h.width

end FitsWord

section whole

variable {form wide : Form} {order : ByteOrder} {bytes : List Byte}

/-- Whole bytes have no bits left over. -/
theorem mul_byteLen (hwhole : form.elementBitLen % 8 = 0) : 8 * form.byteLen = form.bitLen := by
  have hdvd : 8 ∣ form.bitLen :=
    (Nat.dvd_mod_iff (by decide)).2 (Nat.dvd_mul_right_of_dvd (Nat.dvd_of_mod_eq_zero hwhole) _)
  unfold byteLen
  omega

theorem mul_eq_byteLen (hcounted : form.IsCounted) (hwhole : form.elementBitLen % 8 = 0) :
    form.elementBitLen / 8 * form.elementCount = form.byteLen := by
  have hbits : 8 * (form.elementBitLen / 8 * form.elementCount) = form.bitLen := by
    rw [hcounted.bitLen_eq, ← Nat.mul_assoc, Nat.mul_div_cancel' (Nat.dvd_of_mod_eq_zero hwhole)]
  have := mul_byteLen hwhole
  omega

theorem length_arranged (hcounted : form.IsCounted) (hwhole : form.elementBitLen % 8 = 0)
    (hlength : form.byteLen ≤ bytes.length) :
    (form.arranged order bytes).length = form.byteLen := by
  rw [← mul_eq_byteLen hcounted hwhole] at hlength ⊢
  exact length_arrangeElements hlength

theorem joined_append (hcounted : form.IsCounted) (hwhole : form.elementBitLen % 8 = 0)
    (hlength : form.byteLen ≤ bytes.length) (more : List Byte) :
    form.joined order (bytes ++ more) = form.joined order bytes := by
  rw [← mul_eq_byteLen hcounted hwhole] at hlength
  exact joinElements_append hlength more 0

theorem joined_eq (hcounted : form.IsCounted) (hwhole : form.elementBitLen % 8 = 0)
    (hword : form.elementBitLen ≤ 64) (hlength : form.byteLen ≤ bytes.length) :
    form.joined order bytes = bigEndian (form.arranged order bytes) := by
  rw [← mul_eq_byteLen hcounted hwhole] at hlength
  rw [joined, joinElements_eq hwhole hword hlength]
  simp [arranged]

/-- A narrower form has the first of the arranged bytes of a wider one.  In the big-endian order
    the elements do not matter; in the other order those of the two forms have to agree. -/
theorem exists_arranged_append (bytes : List Byte) (hform : form.FitsWord) (hwide : wide.FitsWord)
    (hwholeForm : form.elementBitLen % 8 = 0) (hwholeWide : wide.elementBitLen % 8 = 0)
    (hle : form.bitLen ≤ wide.bitLen)
    (horder : order = .big ∨ form.elementBitLen = wide.elementBitLen) :
    ∃ back, wide.arranged order bytes = form.arranged order bytes ++ back := by
  rcases horder with rfl | hwidth
  · have hbytes : form.byteLen ≤ wide.byteLen := by
      have := mul_byteLen hwholeForm
      have := mul_byteLen hwholeWide
      omega
    unfold arranged
    rw [arrangeElements_big, arrangeElements_big, mul_eq_byteLen hform.isCounted hwholeForm,
      mul_eq_byteLen hwide.isCounted hwholeWide, ← Nat.add_sub_of_le hbytes, List.take_add]
    exact ⟨_, rfl⟩
  · -- Elements of one width: the wider form has more of them.
    have hcount : form.elementCount ≤ wide.elementCount := by
      rw [hform.isCounted.bitLen_eq, hwide.isCounted.bitLen_eq, ← hwidth] at hle
      exact Nat.le_of_mul_le_mul_left hle (Nat.pos_of_mul_pos_right hform.pos)
    unfold arranged
    rw [← hwidth, ← Nat.add_sub_of_le hcount, arrangeElements_add]
    exact ⟨_, rfl⟩

/-- What is in front of the other bytes is in the leading bits of the code. -/
theorem align_bigEndian_append {front back : List Byte} (hpos : 0 < form.bitLen)
    (hfront : 8 * front.length = form.bitLen) (hlength : 8 * (front ++ back).length ≤ 64) :
    form.align (bigEndian (front ++ back)) (8 * (front ++ back).length) = bigEndian front := by
  rw [List.length_append, Nat.mul_add] at hlength ⊢
  -- The shift leaves the front, so it is by less than a word.
  have hshift : 8 * back.length % 64 = 8 * back.length := Nat.mod_eq_of_lt (by omega)
  apply BitVec.eq_of_getLsbD_eq
  intro i hi
  rw [align, codeMask, hfront, Nat.add_sub_cancel_left, hshift, BitVec.getLsbD_and,
    BitVec.getLsbD_ushiftRight, Code.getLsbD_lowMask, bigEndian_append, BitVec.getLsbD_or,
    BitVec.getLsbD_shiftLeft, getLsbD_bigEndian_of_le (Nat.le_add_right _ _),
    Nat.add_sub_cancel_left]
  -- Above the form neither side has a bit.
  by_cases hbit : i < form.bitLen
  · have hlt : 8 * back.length + i < 64 := by omega
    simp [hbit, hi, hlt]
  · rw [getLsbD_bigEndian_of_le (by omega)]
    simp [hbit]

end whole

end Form

/-! ## Assembly -/

section assemble

variable {bytes : List Byte} {order : ByteOrder} {form wide : Form} {code : Code}

/-- **Assembly** needs elements of whole bytes and enough bytes, and puts the elements together. -/
theorem assemble_eq_some (hcounted : form.IsCounted) :
    assemble bytes order form = some code ↔
      form.elementBitLen % 8 = 0 ∧ form.byteLen ≤ bytes.length ∧
        code = form.joined order bytes := by
  unfold assemble
  by_cases hwhole : form.elementBitLen % 8 = 0
  · rw [if_neg (by simpa using hwhole), assembleElements_eq,
      Form.mul_eq_byteLen hcounted hwhole]
    simp only [ByteReader.ofBytes, ByteReader.tail, List.drop_zero,
      Option.ite_none_right_eq_some, Option.some.injEq, hwhole, true_and]
    exact and_congr_right fun _ => eq_comm
  · simp [hwhole]

/-- In a form that fits into a word they make up the big-endian number of the arranged bytes. -/
theorem Form.FitsWord.assemble_eq_some (h : form.FitsWord) :
    assemble bytes order form = some code ↔
      form.elementBitLen % 8 = 0 ∧ form.byteLen ≤ bytes.length ∧
        code = bigEndian (form.arranged order bytes) := by
  rw [IsaCodec.assemble_eq_some h.isCounted]
  refine and_congr_right fun hwhole => and_congr_right fun hlength => ?_
  rw [Form.joined_eq h.isCounted hwhole h.elementBitLen_le hlength]

/-- **Truncation**: bytes have the code that more bytes have, unless they are too few for the
    form. -/
theorem assemble_eq_ite (hcounted : form.IsCounted) (bytes more : List Byte) (order : ByteOrder) :
    assemble bytes order form =
      if form.byteLen ≤ bytes.length then assemble (bytes ++ more) order form else none := by
  by_cases hshort : form.byteLen ≤ bytes.length
  · have hall : form.byteLen ≤ (bytes ++ more).length := by
      rw [List.length_append]
      omega
    rw [if_pos hshort]
    refine Option.ext fun code => ?_
    rw [assemble_eq_some hcounted, assemble_eq_some hcounted]
    refine and_congr_right fun hwhole => ?_
    rw [Form.joined_append hcounted hwhole hshort]
    simp only [hshort, hall]
  · rw [if_neg hshort, Option.eq_none_iff_forall_ne_some]
    intro code hcode
    obtain ⟨-, hlength, -⟩ := (assemble_eq_some hcounted).1 hcode
    exact hshort hlength

/-- An assembled code has no bit outside of its form. -/
theorem and_codeMask_of_assemble (hcounted : form.IsCounted)
    (h : assemble bytes order form = some code) : code &&& form.codeMask = code := by
  obtain ⟨hwhole, hlength, rfl⟩ := (assemble_eq_some hcounted).1 h
  apply BitVec.eq_of_getLsbD_eq
  intro i hi
  rw [BitVec.getLsbD_and, Form.codeMask, Code.getLsbD_lowMask]
  by_cases hbit : i < form.bitLen
  · simp [hbit, hi]
  · -- The form is shorter than a word, and so are its elements, if there are any.
    rcases Nat.eq_zero_or_pos form.elementCount with hnone | hsome
    · rw [Form.joined, hnone, joinElements]
      simp
    · have hword : form.elementBitLen ≤ 64 := by
        have := Nat.le_mul_of_pos_right form.elementBitLen hsome
        rw [hcounted.bitLen_eq] at hbit
        omega
      rw [Form.joined_eq hcounted hwhole hword hlength, getLsbD_bigEndian_of_le, Bool.false_and]
      rw [Form.length_arranged hcounted hwhole hlength, Form.mul_byteLen hwhole]
      omega

/-- **Aligned codes**: the code of a narrower form is the wider form's code of the same bytes,
    aligned to the narrower form. -/
theorem assemble_align (hwide : wide.FitsWord) (hform : form.FitsWord)
    (hwhole : form.elementBitLen % 8 = 0) (hle : form.bitLen ≤ wide.bitLen)
    (horder : order = .big ∨ form.elementBitLen = wide.elementBitLen)
    (h : assemble bytes order wide = some code) :
    assemble bytes order form = some (form.align code wide.bitLen) := by
  obtain ⟨hwholeWide, hlength, rfl⟩ := hwide.assemble_eq_some.1 h
  have hwideBits : 8 * wide.byteLen = wide.bitLen := Form.mul_byteLen hwholeWide
  have hformBits : 8 * form.byteLen = form.bitLen := Form.mul_byteLen hwhole
  have hword := hwide.bitLen_le
  have hshort : form.byteLen ≤ bytes.length := by omega
  obtain ⟨back, hback⟩ :=
    Form.exists_arranged_append bytes hform hwide hwhole hwholeWide hle horder
  have hall : 8 * (form.arranged order bytes ++ back).length = wide.bitLen := by
    rw [← hback, Form.length_arranged hwide.isCounted hwholeWide hlength, hwideBits]
  have hfront : 8 * (form.arranged order bytes).length = form.bitLen := by
    rw [Form.length_arranged hform.isCounted hwhole hshort, hformBits]
  refine hform.assemble_eq_some.2 ⟨hwhole, hshort, ?_⟩
  rw [hback, ← hall]
  exact Form.align_bigEndian_append hform.bitLen_pos hfront (by omega)

end assemble

end IsaCodec
