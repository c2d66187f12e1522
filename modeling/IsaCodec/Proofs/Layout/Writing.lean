import IsaCodec.Proofs.Layout.Bits

/-! # Writing fields

    What a value leaves in a code when it is written into a field, and what
    is read back from there.  Both move bits along the pairs of the field, so
    all that is needed is that the pairs are one to one.

    * **`Field.IsPaired`** — no bit of the code and no bit of the value is in
      two pairs.
    * **`Field.decode_encode`** — a value that fits is read back.
    * **`Field.decode_eq_decode`** — two codes have the same value exactly if
      they agree on the bits of the field. -/

namespace IsaCodec

/-! ## Words -/

namespace Code

/-- A word is within another one if it has no other bits. -/
theorem and_not_eq_zero {a b : Code} :
    a &&& ~~~b = 0 ↔ ∀ bit, a.getLsbD bit = true → b.getLsbD bit = true := by
  constructor
  · intro h bit ha
    have hbit : (a &&& ~~~b).getLsbD bit = false := by rw [h]; exact BitVec.getLsbD_zero
    have hlt : bit < 64 := BitVec.lt_of_getLsbD ha
    simpa [ha, hlt] using hbit
  · intro h
    refine BitVec.eq_of_getLsbD_eq fun bit hlt => ?_
    have hbit := h bit
    cases ha : a.getLsbD bit with
    | false => simp [ha]
    | true => simp [ha, hbit ha]

end Code

/-! ## Subfields -/

namespace Subfield

variable {subfield : Subfield} {value code : Code} {bit v : Nat}

theorem getLsbD_encode_of_not_mem (hbit : bit ∉ subfield.bits) :
    (subfield.encode value code).getLsbD bit = code.getLsbD bit := by
  rw [bits, mem_descending] at hbit
  rw [encode, Code.getLsbD_deposit, if_neg hbit]

theorem getLsbD_encode_of_mem_zip (hlt : bit < 64)
    (hpair : (bit, v) ∈ subfield.bits.zip subfield.bitsInField) :
    (subfield.encode value code).getLsbD bit = value.getLsbD v := by
  obtain ⟨k, hk, rfl, rfl⟩ := mem_zip_descending.1 hpair
  have hmem : subfield.lsb ≤ subfield.lsb + k ∧
      subfield.lsb + k < subfield.lsb + subfield.width := ⟨by omega, by omega⟩
  rw [encode, Code.getLsbD_deposit, if_pos hmem, Nat.add_sub_cancel_left,
    BitVec.getLsbD_ushiftRight, decide_eq_true hlt, Bool.and_true]

end Subfield

/-! ## Fields -/

namespace Field

/-- The pairs of a field are one to one, and both sides are bits of a word. -/
structure IsPaired (field : Field) : Prop where
  nodup_bits : field.bits.Nodup
  nodup_bitsInField : field.bitsInField.Nodup
  lt_of_mem_bits : ∀ bit ∈ field.bits, bit < 64
  lt_of_mem_bitsInField : ∀ v ∈ field.bitsInField, v < 64

variable {field : Field} {value code a b : Code} {bit v : Nat}

/-- Bits that are not the field's stay as they are. -/
theorem getLsbD_encode_of_not_mem (hbit : bit ∉ field.bits) :
    (field.encode value code).getLsbD bit = code.getLsbD bit := by
  revert hbit
  unfold bits encode
  induction field.subfields generalizing code with
  | nil => exact fun _ => rfl
  | cons first rest ih =>
    intro hbit
    rw [List.flatMap_cons, List.mem_append, not_or] at hbit
    obtain ⟨hfirst, hrest⟩ := hbit
    rw [List.foldl_cons, ih hrest]
    exact Subfield.getLsbD_encode_of_not_mem hfirst

/-- A bit of the field becomes the bit of the value that it is paired with. -/
theorem getLsbD_encode_of_mem_zip (hpaired : field.IsPaired)
    (hpair : (bit, v) ∈ field.bits.zip field.bitsInField) :
    (field.encode value code).getLsbD bit = value.getLsbD v := by
  have hlt : bit < 64 := hpaired.lt_of_mem_bits bit (List.of_mem_zip hpair).1
  have hnodup := hpaired.nodup_bits
  revert hpair hnodup
  rw [zip_bits]
  unfold bits encode
  induction field.subfields generalizing code with
  | nil =>
    intro hpair
    cases hpair
  | cons first rest ih =>
    intro hpair hnodup
    rw [List.flatMap_cons, List.nodup_append'] at hnodup
    obtain ⟨-, hrest, hdisjoint⟩ := hnodup
    rw [List.flatMap_cons, List.mem_append] at hpair
    rw [List.foldl_cons]
    rcases hpair with hfirst | hpair
    · -- The subfields after the first one do not write its bits again.
      have hbit : bit ∉ rest.flatMap Subfield.bits := hdisjoint (List.of_mem_zip hfirst).1
      have hkeep : ((⟨field.name, rest, field.extras⟩ : Field).encode value
          (first.encode value code)).getLsbD bit = (first.encode value code).getLsbD bit :=
        getLsbD_encode_of_not_mem hbit
      exact hkeep.trans (Subfield.getLsbD_encode_of_mem_zip hlt hfirst)
    · exact ih hpair hrest

/-! ### Partners -/

theorem length_bits_eq (field : Field) : field.bits.length = field.bitsInField.length := by
  rw [length_bits, length_bitsInField]

/-- Every bit of a field has a partner in the value. -/
theorem exists_mem_zip_of_mem_bits (hbit : bit ∈ field.bits) :
    ∃ v, (bit, v) ∈ field.bits.zip field.bitsInField := by
  rw [← List.map_fst_zip (Nat.le_of_eq field.length_bits_eq), List.mem_map] at hbit
  obtain ⟨⟨bit, v⟩, hpair, rfl⟩ := hbit
  exact ⟨v, hpair⟩

/-- Every bit of a value has a partner in the code. -/
theorem exists_mem_zip_of_mem_bitsInField (hv : v ∈ field.bitsInField) :
    ∃ bit, (bit, v) ∈ field.bits.zip field.bitsInField := by
  rw [← List.map_snd_zip (Nat.le_of_eq field.length_bits_eq.symm), List.mem_map] at hv
  obtain ⟨⟨bit, v⟩, hpair, rfl⟩ := hv
  exact ⟨bit, hpair⟩

theorem getLsbD_decode_of_not_mem (hv : v ∉ field.bitsInField) :
    (field.decode code).getLsbD v = false := by
  rw [← Bool.not_eq_true, getLsbD_decode]
  rintro ⟨-, bit, hpair, -⟩
  exact hv (List.of_mem_zip hpair).2

/-- A bit of the value is in one pair only. -/
theorem IsPaired.eq_of_mem_zip (hpaired : field.IsPaired) {other : Nat}
    (hpair : (bit, v) ∈ field.bits.zip field.bitsInField)
    (hother : (other, v) ∈ field.bits.zip field.bitsInField) : bit = other := by
  have hnodup : ((field.bits.zip field.bitsInField).map Prod.snd).Nodup := by
    rw [List.map_snd_zip (Nat.le_of_eq field.length_bits_eq.symm)]
    exact hpaired.nodup_bitsInField
  exact (Prod.mk.inj (List.inj_on_of_nodup_map hnodup hpair hother rfl)).1

/-- A bit of the value is the bit of the code that it is paired with. -/
theorem getLsbD_decode_of_mem_zip (hpaired : field.IsPaired)
    (hpair : (bit, v) ∈ field.bits.zip field.bitsInField) :
    (field.decode code).getLsbD v = code.getLsbD bit := by
  have hlt : v < 64 := hpaired.lt_of_mem_bitsInField v (List.of_mem_zip hpair).2
  rw [Bool.eq_iff_iff, getLsbD_decode]
  constructor
  · rintro ⟨-, other, hother, hset⟩
    rwa [hpaired.eq_of_mem_zip hpair hother]
  · intro hset
    exact ⟨hlt, bit, hpair, hset⟩

/-- A word is the value of a field if its bits are those of their partners, and it has no other
    ones. -/
theorem decode_eq_of_forall (hpaired : field.IsPaired)
    (hpairs : ∀ bit v, (bit, v) ∈ field.bits.zip field.bitsInField →
      code.getLsbD bit = value.getLsbD v)
    (hothers : ∀ v, v ∉ field.bitsInField → value.getLsbD v = false) :
    field.decode code = value := by
  refine BitVec.eq_of_getLsbD_eq fun v _ => ?_
  by_cases hv : v ∈ field.bitsInField
  · obtain ⟨bit, hpair⟩ := exists_mem_zip_of_mem_bitsInField hv
    rw [getLsbD_decode_of_mem_zip hpaired hpair, hpairs bit v hpair]
  · rw [getLsbD_decode_of_not_mem hv, hothers v hv]

/-! ### Reading back -/

/-- Only the bits of the field matter to its value, and all of them do. -/
theorem decode_eq_decode (hpaired : field.IsPaired) :
    field.decode a = field.decode b ↔ ∀ bit ∈ field.bits, a.getLsbD bit = b.getLsbD bit := by
  constructor
  · intro h bit hbit
    obtain ⟨v, hpair⟩ := exists_mem_zip_of_mem_bits hbit
    rw [← getLsbD_decode_of_mem_zip hpaired hpair, h, getLsbD_decode_of_mem_zip hpaired hpair]
  · intro h
    refine decode_eq_of_forall hpaired (fun bit v hpair => ?_) fun v => getLsbD_decode_of_not_mem
    rw [getLsbD_decode_of_mem_zip hpaired hpair]
    exact h bit (List.of_mem_zip hpair).1

/-- A value that has no bits beyond those of the field is read back. -/
theorem decode_encode (hpaired : field.IsPaired)
    (hfits : ∀ v, value.getLsbD v = true → field.valueMask.getLsbD v = true) :
    field.decode (field.encode value code) = value := by
  refine decode_eq_of_forall hpaired (fun bit v => getLsbD_encode_of_mem_zip hpaired)
    fun v hv => ?_
  rw [← Bool.not_eq_true]
  intro hset
  exact hv (field.getLsbD_valueMask.1 (hfits v hset)).2

/-- A value that was read has no bits beyond those of the field. -/
theorem getLsbD_valueMask_of_decode (hset : (field.decode code).getLsbD v = true) :
    field.valueMask.getLsbD v = true := by
  obtain ⟨hlt, bit, hpair, -⟩ := field.getLsbD_decode.1 hset
  exact field.getLsbD_valueMask.2 ⟨hlt, (List.of_mem_zip hpair).2⟩

end Field

end IsaCodec
