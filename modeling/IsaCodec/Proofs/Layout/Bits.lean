import IsaCodec.Layout
import Mathlib.Data.List.Nodup

/-! # Bits of fields

    A field pairs bits of the instruction with bits of its value.  Here the
    pairs of a field are listed, subfield by subfield, and the masks and the
    value of the field are described by them.

    * **`descending`** — the bits of a run, from the highest one down, the
      order in which formats list bits.
    * **`Field.bits`, `Field.bitsInField`** — the instruction bits of a field
      and, in parallel, the bits of its value.
    * **`Field.getLsbD_decode`** — a bit of the value is set if an instruction
      bit that is paired with it is. -/

namespace IsaCodec

/-! ## Runs of bits -/

/-- The `count` numbers from `lo` on, the highest one first. -/
def descending (lo count : Nat) : List Nat :=
  (List.range' lo count).reverse

@[simp] theorem descending_zero (lo : Nat) : descending lo 0 = [] := rfl

theorem descending_succ (lo count : Nat) :
    descending lo (count + 1) = (lo + count) :: descending lo count := by
  simp [descending, List.range'_concat]

example : descending 4 3 = [6, 5, 4] := rfl

@[simp] theorem length_descending (lo count : Nat) : (descending lo count).length = count := by
  simp [descending]

theorem getElem_descending {lo count k : Nat} (hk : k < (descending lo count).length) :
    (descending lo count)[k] = lo + (count - 1 - k) := by
  simp [descending]

@[simp] theorem mem_descending {lo count i : Nat} :
    i ∈ descending lo count ↔ lo ≤ i ∧ i < lo + count := by
  simp [descending, List.mem_range'_1]

theorem nodup_descending (lo count : Nat) : (descending lo count).Nodup :=
  List.nodup_reverse.2 List.nodup_range'

/-- The higher part of a run comes first. -/
theorem descending_add (lo high low : Nat) :
    descending lo (high + low) = descending (lo + low) high ++ descending lo low := by
  induction high with
  | zero => simp
  | succ high ih =>
    rw [Nat.add_right_comm, descending_succ, descending_succ, ih, List.cons_append]
    congr 1
    omega

/-- Two runs of equal length are paired bit by bit. -/
theorem mem_zip_descending {lo lo' count i j : Nat} :
    (i, j) ∈ (descending lo count).zip (descending lo' count) ↔
      ∃ k < count, i = lo + k ∧ j = lo' + k := by
  induction count with
  | zero => simp
  | succ count ih =>
    rw [descending_succ, descending_succ, List.zip_cons_cons, List.mem_cons, ih]
    constructor
    · rintro (heq | ⟨k, hk, hi, hj⟩)
      · obtain ⟨rfl, rfl⟩ := Prod.mk.inj heq
        exact ⟨count, by omega, rfl, rfl⟩
      · exact ⟨k, by omega, hi, hj⟩
    · intro h
      obtain ⟨k, hk, rfl, rfl⟩ := h
      by_cases hlast : k = count
      · exact .inl (by rw [hlast])
      · exact .inr ⟨k, by omega, rfl, rfl⟩

/-! ## Subfields -/

namespace Subfield

variable (subfield : Subfield)

/-- The instruction bits of a subfield, the most significant one first. -/
def bits : List Nat :=
  descending subfield.lsb subfield.width

/-- The bits of the value that a subfield holds, in the order of its instruction bits. -/
def bitsInField : List Nat :=
  descending subfield.lsbInField subfield.width

@[simp] theorem length_bits : subfield.bits.length = subfield.width := length_descending _ _

@[simp] theorem length_bitsInField : subfield.bitsInField.length = subfield.width :=
  length_descending _ _

theorem getLsbD_mask {i : Nat} : subfield.mask.getLsbD i = true ↔ i < 64 ∧ i ∈ subfield.bits := by
  rw [mask, Code.getLsbD_lowMask_shiftLeft, bits, mem_descending, decide_eq_true_iff]
  omega

theorem getLsbD_valueMask {i : Nat} :
    subfield.valueMask.getLsbD i = true ↔ i < 64 ∧ i ∈ subfield.bitsInField := by
  rw [valueMask, Code.getLsbD_lowMask_shiftLeft, bitsInField, mem_descending, decide_eq_true_iff]
  omega

theorem getLsbD_decode {code : Code} {v : Nat} :
    (subfield.decode code).getLsbD v = true ↔
      v < 64 ∧ ∃ bit, (bit, v) ∈ subfield.bits.zip subfield.bitsInField ∧ code.getLsbD bit := by
  simp only [decode, BitVec.getLsbD_shiftLeft, BitVec.getLsbD_and, BitVec.getLsbD_ushiftRight,
    Code.getLsbD_lowMask, bits, bitsInField, mem_zip_descending, Bool.and_eq_true,
    Bool.not_eq_true', decide_eq_true_iff, decide_eq_false_iff_not]
  -- Bit `v` of the value comes from the bit that lies as far above the lowest one.
  constructor
  · intro h
    obtain ⟨⟨hv, hlow⟩, hcode, hk, -⟩ := h
    exact ⟨hv, _, ⟨v - subfield.lsbInField, hk, rfl, by omega⟩, hcode⟩
  · intro h
    obtain ⟨hv, bit, ⟨k, hk, rfl, rfl⟩, hcode⟩ := h
    rw [Nat.add_sub_cancel_left]
    exact ⟨⟨hv, by omega⟩, hcode, hk, by omega⟩

end Subfield

/-! ## Fields -/

namespace Field

variable (field : Field)

/-- The instruction bits of a field, in order of declaration. -/
def bits : List Nat :=
  field.subfields.flatMap Subfield.bits

/-- The bits of a field's value, in the order of its instruction bits. -/
def bitsInField : List Nat :=
  field.subfields.flatMap Subfield.bitsInField

theorem length_bits : field.bits.length = field.width := by
  unfold bits width
  induction field.subfields with
  | nil => rfl
  | cons subfield subfields ih => simp [ih]

theorem length_bitsInField : field.bitsInField.length = field.width := by
  unfold bitsInField width
  induction field.subfields with
  | nil => rfl
  | cons subfield subfields ih => simp [ih]

/-- The pairs of a field are those of its subfields. -/
theorem zip_bits : field.bits.zip field.bitsInField =
    field.subfields.flatMap fun subfield => subfield.bits.zip subfield.bitsInField := by
  unfold bits bitsInField
  induction field.subfields with
  | nil => rfl
  | cons subfield subfields ih =>
    rw [List.flatMap_cons, List.flatMap_cons, List.flatMap_cons, List.zip_append (by simp), ih]

theorem getLsbD_mask {i : Nat} : field.mask.getLsbD i = true ↔ i < 64 ∧ i ∈ field.bits := by
  simp only [mask, Code.getLsbD_union, List.any_map, List.any_eq_true, Function.comp_apply,
    Subfield.getLsbD_mask, bits, List.mem_flatMap]
  grind

theorem getLsbD_valueMask {i : Nat} :
    field.valueMask.getLsbD i = true ↔ i < 64 ∧ i ∈ field.bitsInField := by
  simp only [valueMask, Code.getLsbD_union, List.any_map, List.any_eq_true, Function.comp_apply,
    Subfield.getLsbD_valueMask, bitsInField, List.mem_flatMap]
  grind

/-- **Decoding**: a bit of the value is set exactly if it is paired with an instruction bit that
    is set in the code. -/
theorem getLsbD_decode {code : Code} {v : Nat} :
    (field.decode code).getLsbD v = true ↔
      v < 64 ∧ ∃ bit, (bit, v) ∈ field.bits.zip field.bitsInField ∧ code.getLsbD bit := by
  simp only [decode, Code.getLsbD_union, List.any_map, List.any_eq_true, Function.comp_apply,
    Subfield.getLsbD_decode, zip_bits, List.mem_flatMap]
  grind

/-- The most significant bit of a field is its highest instruction bit. -/
theorem msb_isGreatest (hne : field.subfields ≠ [])
    (hends : ∀ subfield ∈ field.subfields, subfield.lsb ≤ subfield.msb) :
    field.msb ∈ field.bits ∧ ∀ bit ∈ field.bits, bit ≤ field.msb := by
  obtain ⟨top, htop⟩ := Option.isSome_iff_exists.1 <|
    List.isSome_max?_of_ne_nil (l := field.subfields.map Subfield.msb) (by simpa using hne)
  have hmsb : field.msb = top := by rw [msb, htop, Option.getD_some]
  obtain ⟨hmem, hle⟩ := List.max?_eq_some_iff.1 htop
  obtain ⟨subfield, hsubfield, heq⟩ := List.mem_map.1 hmem
  rw [hmsb]
  constructor
  · refine List.mem_flatMap.2 ⟨subfield, hsubfield, ?_⟩
    have := hends subfield hsubfield
    rw [Subfield.bits, mem_descending, Subfield.width]
    omega
  · intro bit hbit
    obtain ⟨other, hother, hbit⟩ := List.mem_flatMap.1 hbit
    have hmax := hle _ (List.mem_map_of_mem hother)
    have := hends other hother
    rw [Subfield.bits, mem_descending, Subfield.width] at hbit
    omega

/-- The number of value bits goes up to the highest bit of the value. -/
theorem valueBits_isLeast (hne : field.subfields ≠ []) :
    (∀ v ∈ field.bitsInField, v < field.valueBits) ∧
      ∀ bound, (∀ v ∈ field.bitsInField, v < bound) → field.valueBits ≤ bound := by
  obtain ⟨top, htop⟩ := Option.isSome_iff_exists.1 <|
    List.isSome_max?_of_ne_nil (l := field.subfields.map fun s => s.lsbInField + s.width)
      (by simpa using hne)
  have htop' : field.valueBits = top := by rw [valueBits, htop, Option.getD_some]
  obtain ⟨hmem, hle⟩ := List.max?_eq_some_iff.1 htop
  obtain ⟨subfield, hsubfield, heq⟩ := List.mem_map.1 hmem
  rw [htop']
  constructor
  · intro v hv
    obtain ⟨other, hother, hv⟩ := List.mem_flatMap.1 hv
    have hmax := hle _ (List.mem_map_of_mem hother)
    rw [Subfield.bitsInField, mem_descending] at hv
    omega
  · intro bound hbound
    -- The highest bit of the subfield that reaches the top is below the bound.
    have hlast : subfield.lsbInField + subfield.width - 1 ∈ field.bitsInField := by
      refine List.mem_flatMap.2 ⟨subfield, hsubfield, ?_⟩
      rw [Subfield.bitsInField, mem_descending, Subfield.width]
      omega
    have := hbound _ hlast
    omega

end Field

end IsaCodec
