import IsaCodec.Proofs.Instruction.Encoding

/-! # Fixed bits of encoded codes

    A code is made from the fixed bits by writing values over them.  A segment
    of a field may have bits that are fixed, and nothing compares a value with
    them: they are written over like free ones.  So a code has the fixed bits
    of its instruction only if the values bring them along.

    * **`matchesFixedBits_iff_of_compile`** — which values bring the fixed bits
      along, and that all do if their fields have free bits only.
    * **`not_matchesFixedBits_literal`** — a code that does not have the fixed
      bits of the instruction that made it. -/

namespace IsaCodec

/-! ## Values that were given -/

theorem FieldValues.exists_last?_iff {values : FieldValues} {name : String} :
    (∃ value, values.last? name = some value) ↔ name ∈ values.map Prod.fst := by
  have hnone : values.last? name = none ↔ name ∉ values.map Prod.fst := by
    rw [last?, get?, List.lookup_eq_none_iff, List.mem_map]
    constructor
    · intro h hmem
      obtain ⟨pair, hpair, rfl⟩ := hmem
      have := h pair (List.mem_reverse.2 hpair)
      rw [bne_self_eq_false] at this
      cases this
    · intro h pair hpair
      rw [bne_iff_ne]
      intro heq
      exact h ⟨pair, List.mem_reverse.1 hpair, heq.symm⟩
  rw [← Option.ne_none_iff_exists', ne_eq, hnone, not_not]

/-! ## Bits of a field -/

/-- The value of the bits that two codes have in common. -/
theorem Field.decode_and {field : Field} (hpaired : field.IsPaired) (a b : Code) :
    field.decode (a &&& b) = field.decode a &&& field.decode b := by
  apply decode_eq_of_forall hpaired
  · intro bit v hpair
    simp only [BitVec.getLsbD_and, getLsbD_decode_of_mem_zip hpaired hpair]
  · intro v hv
    simp only [BitVec.getLsbD_and, getLsbD_decode_of_not_mem hv, Bool.and_false]

theorem Field.IsPaired.decode_eq_zero {field : Field} (hpaired : field.IsPaired) {code : Code}
    (hcode : ∀ bit ∈ field.bits, code.getLsbD bit = false) : field.decode code = 0 := by
  apply decode_eq_of_forall hpaired
  · intro bit v hpair
    rw [hcode bit (List.of_mem_zip hpair).1]
    exact BitVec.getLsbD_zero.symm
  · exact fun v _ => BitVec.getLsbD_zero

/-- A bit of a field stands in the pattern of one of its segments. -/
theorem Format.exists_segment_of_mem_bitsOf {format : Format} {name : String} {bit : Nat}
    (hbit : bit ∈ format.bitsOf name) :
    ∃ k, ∃ hk : k < format.pattern.length, bit = format.pattern.length - 1 - k ∧
      ∃ segment ∈ format.segments, segment.name = some name ∧
        format.pattern[k] ∈ segment.pattern := by
  have hlength : format.owners.length = format.pattern.length := format.length_owners
  rw [bitsOf, mem_bitsIn] at hbit
  change (bit, some name) ∈ (descending 0 format.owners.length).zip format.owners at hbit
  obtain ⟨k, hk, hpair⟩ := List.mem_iff_getElem.1 hbit
  have hk' : k < format.owners.length := by
    rw [List.length_zip] at hk
    exact Nat.lt_of_lt_of_le hk (Nat.min_le_right _ _)
  rw [List.getElem_zip, getElem_descending] at hpair
  obtain ⟨hposition, howner⟩ := Prod.mk.inj hpair
  have hpattern : (format.pattern[k], format.owners[k]) ∈ format.pattern.zip format.owners :=
    mem_zip_getElem (hlength ▸ hk') hk'
  generalize hletter : format.pattern[k] = letter at hpattern
  rw [howner, pattern_eq_flatMap_segments] at hpattern
  obtain ⟨segment, hsegment, hmem, hname⟩ := exists_segment_of_mem_zip hpattern
  refine ⟨k, hlength ▸ hk', ?_, segment, hsegment, hname, hletter ▸ hmem⟩
  rw [← hposition, hlength, Nat.zero_add]

/-- Bits that are fixed to one are fixed. -/
theorem Format.IsCompiledTo.mask_of_bits {format : Format} {instruction : Instruction}
    (h : format.IsCompiledTo instruction) {bit : Nat}
    (hbit : instruction.fixed.bits.getLsbD bit = true) :
    instruction.fixed.mask.getLsbD bit = true := by
  by_cases hlt : bit < format.pattern.length
  · obtain ⟨k, hk, rfl⟩ : ∃ k < format.pattern.length, bit = format.pattern.length - 1 - k :=
      ⟨format.pattern.length - 1 - bit, by omega, by omega⟩
    rw [h.mask k hk, (h.bits k hk).1 hbit]
    decide
  · obtain ⟨-, hunset⟩ := h.above bit (Nat.le_of_not_lt hlt)
    rw [hunset] at hbit
    cases hbit

namespace Instruction

section encode

variable {description : InstructionDescription} {instruction : Instruction} {format : Format}
  {values : FieldValues} {code : Code}

/-- A code has the fixed bits exactly if no bit that is fixed differs. -/
theorem matchesFixedBits_iff (h : format.IsCompiledTo instruction) :
    instruction.matchesFixedBits code = true ↔
      ∀ bit, instruction.fixed.mask.getLsbD bit = true →
        code.getLsbD bit = instruction.fixed.bits.getLsbD bit := by
  rw [matchesFixedBits, FixedBits.isMatch, beq_iff_eq]
  constructor
  · intro heq bit hmask
    rw [← heq, BitVec.getLsbD_and, hmask, Bool.and_true]
  · intro hsame
    apply BitVec.eq_of_getLsbD_eq
    intro bit _
    rw [BitVec.getLsbD_and]
    cases hmask : instruction.fixed.mask.getLsbD bit with
    | true => rw [Bool.and_true, hsame bit hmask]
    | false =>
      rw [Bool.and_false, eq_comm, ← Bool.not_eq_true]
      intro hbit
      rw [h.mask_of_bits hbit] at hmask
      cases hmask

/-- A value has, where bits of its field are fixed, the bits to which they are fixed. -/
def BringsFixedBits (instruction : Instruction) (field : Field) (value : Code) : Prop :=
  value &&& field.decode instruction.fixed.mask = field.decode instruction.fixed.bits

/-- The bits of the values have to be the fixed ones; the other bits are the fixed ones anyway. -/
theorem IsAssigned.matchesFixedBits_iff (hcompiled : format.IsCompiledTo instruction)
    (hlaidOut : instruction.IsLaidOut)
    (h : instruction.IsAssigned values instruction.fixed.bits code) :
    instruction.matchesFixedBits code = true ↔
      ∀ field ∈ instruction.fields, ∀ value, values.last? field.name = some value →
        instruction.BringsFixedBits field value := by
  have hdecode : ∀ field ∈ instruction.fields, ∀ value, values.last? field.name = some value →
      field.decode (code &&& instruction.fixed.mask) =
        value &&& field.decode instruction.fixed.mask := by
    intro field hfield value hvalue
    rw [Field.decode_and (hlaidOut.paired field hfield), h.fields field hfield, hvalue,
      Option.getD_some]
  constructor
  · intro hmatch field hfield value hvalue
    rw [BringsFixedBits, ← hdecode field hfield value hvalue]
    have heq : code &&& instruction.fixed.mask = instruction.fixed.bits := by
      simpa [matchesFixedBits, FixedBits.isMatch] using hmatch
    rw [heq]
  · intro hbrings
    rw [Instruction.matchesFixedBits_iff hcompiled]
    intro bit hmask
    by_cases hnamed : ∃ field ∈ instruction.fields, field.name ∈ values.map Prod.fst ∧
        bit ∈ field.bits
    · -- The value of the field was written here last.
      obtain ⟨field, hfield, hname, hbit⟩ := hnamed
      obtain ⟨value, hvalue⟩ := FieldValues.exists_last?_iff.2 hname
      have heq := (hdecode field hfield value hvalue).trans (hbrings field hfield value hvalue)
      have hsame := (Field.decode_eq_decode (hlaidOut.paired field hfield)).1 heq bit hbit
      rwa [BitVec.getLsbD_and, hmask, Bool.and_true] at hsame
    · -- Nothing was written here, so the bit is still the fixed one.
      apply h.others
      intro field hfield hname hbit
      exact hnamed ⟨field, hfield, hname, hbit⟩

/-- Where no bit of a field is fixed, there is nothing to bring along. -/
theorem bringsFixedBits_of_free (hcompiled : format.IsCompiledTo instruction) {field : Field}
    (hpaired : field.IsPaired)
    (hmask : ∀ bit ∈ field.bits, instruction.fixed.mask.getLsbD bit = false) (value : Code) :
    instruction.BringsFixedBits field value := by
  have hbits : ∀ bit ∈ field.bits, instruction.fixed.bits.getLsbD bit = false := by
    intro bit hbit
    rw [← Bool.not_eq_true]
    intro hset
    have := hcompiled.mask_of_bits hset
    rw [hmask bit hbit] at this
    cases this
  rw [BringsFixedBits, hpaired.decode_eq_zero hmask, hpaired.decode_eq_zero hbits]
  exact BitVec.and_zero

/-- No bit of a field is fixed if its segments have free bits only. -/
theorem mask_eq_false_of_free (hcompiled : format.IsCompiledTo instruction) {name : String}
    (hfree : ∀ segment ∈ format.segments, segment.name = some name →
      ∀ bit ∈ segment.pattern, bit = .any) {bit : Nat} (hbit : bit ∈ format.bitsOf name) :
    instruction.fixed.mask.getLsbD bit = false := by
  obtain ⟨k, hk, rfl, segment, hsegment, howner, hletter⟩ :=
    Format.exists_segment_of_mem_bitsOf hbit
  rw [← Bool.not_eq_true, hcompiled.mask k hk, not_not]
  exact hfree segment hsegment howner _ hletter

end encode

/-! ## Encoding -/

/-- **Which codes keep the fixed bits**: encoding gives a code of the instruction exactly if each
    value has the bits that are fixed inside its field.  If the segments of the fields that are
    given have free bits only, then every value has. -/
theorem matchesFixedBits_iff_of_compile {description : InstructionDescription}
    {instruction : Instruction} (h : compile description = .ok instruction) {values : FieldValues}
    {code : Code} (hencode : instruction.encode values = .ok code) :
    (instruction.matchesFixedBits code = true ↔
      ∀ field ∈ instruction.fields, ∀ value, values.last? field.name = some value →
        instruction.BringsFixedBits field value) ∧
    ∀ format, Format.parse description.format = .ok format →
      (∀ segment ∈ format.segments, ∀ name ∈ values.map Prod.fst, segment.name = some name →
        ∀ bit ∈ segment.pattern, bit = .any) →
      instruction.matchesFixedBits code = true := by
  obtain ⟨read, layout, hread, hproper, hlaysOut, hform, hfixed, hfields⟩ :=
    exists_laysOut_of_compile h
  have hcompiled := hlaysOut.isCompiledTo hproper hform hfixed hfields
  have hlaidOut := isLaidOut_of_compile h
  have hassigned := isAssigned_of_assignAll hlaidOut (mapError_eq_ok.1 hencode)
  have hiff := hassigned.matchesFixedBits_iff hcompiled hlaidOut
  refine ⟨hiff, fun format hformat hfree => hiff.2 fun field hfield value hvalue => ?_⟩
  obtain rfl := Except.ok.inj (hformat.symm.trans hread)
  have hname := FieldValues.exists_last?_iff.1 ⟨value, hvalue⟩
  apply bringsFixedBits_of_free hcompiled (hlaidOut.paired field hfield)
  rw [(hlaysOut.declares field (hfields ▸ hfield)).bits]
  intro bit hbit
  refine mask_eq_false_of_free hcompiled (fun segment hsegment howner => ?_) hbit
  exact hfree segment hsegment field.name hname howner

/-- A field with a bit that is fixed. -/
def literal : InstructionDescription :=
  Sample.plain "t" "01:f|xx"

/-- One value has the bit that is fixed, another one writes over it. -/
theorem exists_compile_literal :
    ∃ instruction, compile literal = .ok instruction ∧
      (instruction.encode [("f", 1)] = .ok 0x4 ∧ instruction.matchesFixedBits 0x4 = true) ∧
        instruction.encode [("f", 2)] = .ok 0x8 ∧ instruction.matchesFixedBits 0x8 = false := by
  have hruns : (compile literal).toOption.map (fun instruction =>
      (((instruction.encode [("f", 1)]).toOption, instruction.matchesFixedBits 0x4),
        (instruction.encode [("f", 2)]).toOption, instruction.matchesFixedBits 0x8)) =
        some ((some 0x4, true), some 0x8, false) := by
    decide +kernel
  obtain ⟨instruction, hcompile, hruns⟩ := Option.map_eq_some_iff.1 hruns
  simp only [Prod.mk.injEq, toOption_eq_some] at hruns
  exact ⟨instruction, toOption_eq_some.1 hcompile, hruns⟩

theorem matchesFixedBits_iff_of_compile_literal :
    ∃ instruction, compile literal = .ok instruction ∧
      instruction.encode [("f", 1)] = .ok 0x4 ∧ instruction.matchesFixedBits 0x4 = true ∧
        ∀ field ∈ instruction.fields, ∀ value,
          FieldValues.last? [("f", 1)] field.name = some value →
            instruction.BringsFixedBits field value := by
  obtain ⟨instruction, hcompile, ⟨hcode, hmatch⟩, -⟩ := exists_compile_literal
  obtain ⟨hiff, -⟩ := matchesFixedBits_iff_of_compile hcompile hcode
  exact ⟨instruction, hcompile, hcode, hmatch, hiff.1 hmatch⟩

/-- A value that fits may write over the fixed bits: the code is not one of the instruction. -/
theorem not_matchesFixedBits_literal :
    ¬∀ description instruction, compile description = .ok instruction →
      ∀ values code, instruction.encode values = .ok code →
        instruction.matchesFixedBits code = true := by
  intro hall
  obtain ⟨instruction, hcompile, -, hcode, hmatch⟩ := exists_compile_literal
  have := hall literal instruction hcompile [("f", 2)] 0x8 hcode
  rw [hmatch] at this
  cases this

end Instruction

end IsaCodec
