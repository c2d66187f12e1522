import IsaCodec.Proofs.Instruction.Assignment

/-! # Encoding and decoding

    A code is made from the fixed bits and the values of some fields; the
    values of all fields are read from a code.  On a compiled instruction the
    two undo each other, up to the bits that are neither fixed nor named.

    * **`encode_of_compile`** — decoding undoes encoding.
    * **`encode_decodeFields_of_compile`** — encoding undoes decoding.  The
      bits that get lost are those that are free and belong to no field, so
      that none does if the format names all free bits. -/

namespace IsaCodec

namespace Instruction

/-! ## Decoding after encoding -/

theorem encode_eq_error {instruction : Instruction} {values : FieldValues} {error : LayoutError}
    (h : instruction.IsLaidOut) :
    instruction.encode values = .error error ↔
      ∃ fault, instruction.RejectsFirst values fault ∧ error = ⟨instruction.name, fault⟩ := by
  unfold encode
  cases hrun : instruction.assignAll instruction.fixed.bits values with
  | error fault =>
    have hfirst := (assignAll_eq_error h).1 hrun
    constructor
    · intro herror
      exact ⟨fault, hfirst, (Except.error.inj herror).symm⟩
    · rintro ⟨other, hother, rfl⟩
      rw [(assignAll_eq_error h).2 hother] at hrun
      rw [Except.error.inj hrun]
      rfl
  | ok code =>
    constructor
    · intro herror
      cases herror
    · rintro ⟨fault, hfirst, -⟩
      rw [(assignAll_eq_error h).2 hfirst] at hrun
      cases hrun

/-- A code is what an instruction makes of values. -/
structure IsCodeOf (instruction : Instruction) (values : FieldValues) (code : Code) : Prop where
  inForm : code &&& ~~~instruction.form.codeMask = 0
  /-- A field has the last value that is given for it, or else the one that the fixed bits give. -/
  fields : instruction.decodeFields code = instruction.fields.map fun field =>
    (field.name, (values.last? field.name).getD (field.decode instruction.fixed.bits))
  /-- Other bits than those of the fields that are named are the fixed ones. -/
  others : ∀ bit, (∀ field ∈ instruction.fields, field.name ∈ values.map Prod.fst →
    field.mask.getLsbD bit = false) → code.getLsbD bit = instruction.fixed.bits.getLsbD bit

theorem IsAssigned.isCodeOf {instruction : Instruction} {values : FieldValues} {code : Code}
    (h : instruction.IsLaidOut)
    (hassigned : instruction.IsAssigned values instruction.fixed.bits code) :
    instruction.IsCodeOf values code := by
  refine ⟨?_, ?_, ?_⟩
  · rw [Code.and_not_eq_zero]
    intro bit hset
    rw [Form.codeMask, Code.getLsbD_lowMask, decide_eq_true_iff]
    refine ⟨?_, BitVec.lt_of_getLsbD hset⟩
    -- Above the form there are neither fields nor fixed bits.
    by_contra hbit
    have hout : ∀ field ∈ instruction.fields, field.name ∈ values.map Prod.fst →
        bit ∉ field.bits := by
      intro field hfield _ hmem
      exact hbit (h.inForm field hfield bit hmem)
    rw [hassigned.others bit hout, h.above bit (Nat.le_of_not_lt hbit)] at hset
    cases hset
  · refine List.map_congr_left fun field hfield => ?_
    rw [hassigned.fields field hfield]
  · intro bit hbit
    apply hassigned.others
    intro field hfield hname hmem
    have hlt : bit < 64 := (h.paired field hfield).lt_of_mem_bits bit hmem
    have hset : field.mask.getLsbD bit = true := field.getLsbD_mask.2 ⟨hlt, hmem⟩
    rw [hbit field hfield hname] at hset
    cases hset

/-- **Decoding undoes encoding**: encoding fails exactly if a pair is rejected, with a fault of the
    first one, and else it gives a code with the values that were written and the fixed bits. -/
theorem encode_of_compile {description : InstructionDescription} {instruction : Instruction}
    (h : compile description = .ok instruction) (values : FieldValues) :
    ((∃ error, instruction.encode values = .error error) ↔
      ∃ pair ∈ values, ∃ fault, instruction.Rejects pair fault) ∧
    (∀ error, instruction.encode values = .error error ↔
      ∃ fault, instruction.RejectsFirst values fault ∧ error = ⟨instruction.name, fault⟩) ∧
    ((∀ pair ∈ values, instruction.Accepts pair) →
      ∃ code, instruction.encode values = .ok code ∧ instruction.IsCodeOf values code) := by
  have hlaidOut := isLaidOut_of_compile h
  refine ⟨?_, fun error => encode_eq_error hlaidOut, ?_⟩
  · rw [← exists_rejectsFirst_iff]
    constructor
    · rintro ⟨error, herror⟩
      obtain ⟨fault, hfirst, -⟩ := (encode_eq_error hlaidOut).1 herror
      exact ⟨fault, hfirst⟩
    · rintro ⟨fault, hfirst⟩
      exact ⟨_, (encode_eq_error hlaidOut).2 ⟨fault, hfirst, rfl⟩⟩
  · intro haccepts
    cases hcode : instruction.encode values with
    | error error =>
      obtain ⟨fault, ⟨before, pair, after, rfl, -, hrejects⟩, -⟩ := (encode_eq_error hlaidOut).1 hcode
      exact absurd hrejects (haccepts pair (by simp) fault)
    | ok code =>
      have hrun := mapError_eq_ok.1 hcode
      exact ⟨code, rfl, (isAssigned_of_assignAll hlaidOut hrun).isCodeOf hlaidOut⟩

/-- Two registers for one field, of which the later one counts, and an immediate value. -/
def addi4spnValues : FieldValues :=
  [("rd", 5), ("nzuimm", 0x3c8), ("rd", 1)]

theorem encode_of_compile_addi4spn :
    ∃ instruction, compile addi4spn = .ok instruction ∧
      instruction.encode addi4spnValues = .ok 0x7a4 ∧
      instruction.IsCodeOf addi4spnValues 0x7a4 ∧
      instruction.encode [("rd", 8), ("imm", 1)] = .error ⟨"c_addi4spn", .fieldValue "rd" 8⟩ ∧
      ∃ pair ∈ [("rd", 8), ("imm", 1)], ∃ fault, instruction.Rejects pair fault := by
  have hcompiled : (compile addi4spn).toOption.isSome := by decide +kernel
  obtain ⟨instruction, hcompile⟩ := exists_eq_ok hcompiled
  have hruns : (compile addi4spn).toOption.map (fun instruction =>
      ((instruction.encode addi4spnValues).toOption, instruction.encode [("rd", 8), ("imm", 1)])) =
        some (some 0x7a4, .error ⟨"c_addi4spn", .fieldValue "rd" 8⟩) := by
    decide +kernel
  rw [hcompile] at hruns
  obtain ⟨hcode, herror⟩ := Prod.mk.inj (Option.some.inj hruns)
  rw [toOption_eq_some] at hcode
  obtain ⟨hsucceeds, -, hresult⟩ := encode_of_compile hcompile addi4spnValues
  have haccepts : ∀ pair ∈ addi4spnValues, instruction.Accepts pair := by
    intro pair hpair fault hrejects
    obtain ⟨error, herror⟩ := hsucceeds.2 ⟨pair, hpair, fault, hrejects⟩
    rw [hcode] at herror
    cases herror
  obtain ⟨code, hcode', hisCodeOf⟩ := hresult haccepts
  obtain rfl := Except.ok.inj (hcode.symm.trans hcode')
  obtain ⟨hfails, -, -⟩ := encode_of_compile hcompile [("rd", 8), ("imm", 1)]
  exact ⟨instruction, hcompile, hcode, hisCodeOf, herror, hfails.1 ⟨_, herror⟩⟩

end Instruction

/-! ## Formats whose free bits have names -/

namespace Format

/-- Every bit that a format leaves free belongs to a field. -/
def NamesFreeBits (format : Format) : Prop :=
  ∀ segment ∈ format.segments, .any ∈ segment.pattern → segment.name ≠ none

instance (format : Format) : Decidable format.NamesFreeBits :=
  inferInstanceAs (Decidable (∀ segment ∈ format.segments,
    .any ∈ segment.pattern → segment.name ≠ none))

/-- A bit of the pattern and its owner come from one segment. -/
theorem exists_segment_of_mem_zip {segments : List Segment} {bit : PatternBit}
    {owner : Option String}
    (hmem : (bit, owner) ∈ (segments.flatMap Segment.pattern).zip (ownersIn segments)) :
    ∃ segment ∈ segments, bit ∈ segment.pattern ∧ segment.name = owner := by
  induction segments with
  | nil => cases hmem
  | cons first rest ih =>
    rw [ownersIn, List.flatMap_cons, List.flatMap_cons, List.zip_append (by simp),
      List.mem_append] at hmem
    rcases hmem with hfirst | hrest
    · obtain ⟨hbit, howner⟩ := List.of_mem_zip hfirst
      obtain ⟨_, -, rfl⟩ := List.mem_map.1 howner
      exact ⟨first, List.mem_cons_self, hbit, rfl⟩
    · obtain ⟨segment, hsegment, hbit, howner⟩ := ih hrest
      exact ⟨segment, List.mem_cons_of_mem first hsegment, hbit, howner⟩

theorem mem_zip_getElem {α β : Type} {xs : List α} {ys : List β} {k : Nat} (hxs : k < xs.length)
    (hys : k < ys.length) : (xs[k], ys[k]) ∈ xs.zip ys := by
  have hk : k < (xs.zip ys).length := by
    rw [List.length_zip]
    exact Nat.lt_min.2 ⟨hxs, hys⟩
  have hpair : (xs.zip ys)[k] = (xs[k], ys[k]) := List.getElem_zip
  exact hpair ▸ List.getElem_mem hk

/-- A free bit of a format that names its free bits belongs to a field. -/
theorem NamesFreeBits.exists_mem_bitsOf {format : Format} (h : format.NamesFreeBits) {k : Nat}
    (hk : k < format.pattern.length) (hany : format.pattern[k] = .any) :
    ∃ name, (∃ segment ∈ format.segments, segment.name = some name) ∧
      format.pattern.length - 1 - k ∈ format.bitsOf name := by
  have howner : k < format.owners.length := by
    rw [length_owners]
    exact hk
  have hbit : k < (descending 0 format.owners.length).length := by
    rw [length_descending]
    exact howner
  have hpattern : (format.pattern[k], format.owners[k]) ∈ format.pattern.zip format.owners :=
    mem_zip_getElem hk howner
  rw [hany, pattern_eq_flatMap_segments] at hpattern
  obtain ⟨segment, hsegment, hfree, hname⟩ := exists_segment_of_mem_zip hpattern
  obtain ⟨name, hsome⟩ := Option.ne_none_iff_exists'.1 (h segment hsegment hfree)
  refine ⟨name, ⟨segment, hsegment, hsome⟩, ?_⟩
  have hmem := mem_zip_getElem hbit howner
  rw [getElem_descending, ← hname, hsome, Nat.zero_add, length_owners] at hmem
  rw [bitsOf, mem_bitsIn]
  show (format.bitLen - 1 - k, some name) ∈ (descending 0 format.owners.length).zip format.owners
  rw [length_owners]
  exact hmem

/-- If the free bits have names, every bit is fixed or belongs to a field. -/
theorem LaysOut.fixed_or_named {format : Format} {layout : Layout} (h : format.LaysOut layout)
    (hnames : format.NamesFreeBits) {bit : Nat} (hbit : bit < layout.form.bitLen) :
    layout.fixed.mask.getLsbD bit = true ∨ ∃ field ∈ layout.fields, bit ∈ field.bits := by
  have hwidth : format.pattern.length ≤ 64 := h.width
  have hlength : layout.form.bitLen = format.pattern.length := h.bitLen_eq
  -- The bit stands at this place of the pattern.
  obtain ⟨k, hk, rfl⟩ : ∃ k < format.pattern.length, bit = format.pattern.length - 1 - k :=
    ⟨format.pattern.length - 1 - bit, by omega, by omega⟩
  by_cases hany : format.pattern[k] = .any
  · right
    obtain ⟨name, hname, hmem⟩ := hnames.exists_mem_bitsOf hk hany
    obtain ⟨field, hfield, rfl⟩ := List.mem_map.1 ((h.names name).2 hname)
    exact ⟨field, hfield, (h.declares field hfield).bits ▸ hmem⟩
  · left
    rw [h.fixed, FixedBits.ofPattern_eq, FixedBits.getLsbD_bitsWhere_of_lt _ hwidth hk]
    simpa using hany

end Format

/-! ## Encoding after decoding -/

namespace Instruction

/-- The bits that belong to fields. -/
def fieldMask (instruction : Instruction) : Code :=
  Code.union (instruction.fields.map Field.mask)

section decodeFields

variable {instruction : Instruction} {code : Code}

theorem getLsbD_fieldMask (h : instruction.IsLaidOut) {bit : Nat} :
    instruction.fieldMask.getLsbD bit = true ↔ ∃ field ∈ instruction.fields, bit ∈ field.bits := by
  simp only [fieldMask, Code.getLsbD_union, List.any_map, List.any_eq_true, Function.comp_apply,
    Field.getLsbD_mask]
  constructor
  · rintro ⟨field, hfield, -, hbit⟩
    exact ⟨field, hfield, hbit⟩
  · rintro ⟨field, hfield, hbit⟩
    exact ⟨field, hfield, (h.paired field hfield).lt_of_mem_bits bit hbit, hbit⟩

/-- Values that were read can be written. -/
theorem accepts_of_mem_decodeFields (h : instruction.IsLaidOut) {pair : String × Code}
    (hpair : pair ∈ instruction.decodeFields code) : instruction.Accepts pair := by
  obtain ⟨field, hfield, rfl⟩ := List.mem_map.1 hpair
  intro fault hrejects
  generalize hvalue : field.decode code = value at hrejects
  generalize hname : field.name = name at hrejects
  cases hrejects with
  | undefinedField hundefined =>
    rw [← hname] at hundefined
    exact hundefined (List.mem_map_of_mem hfield)
  | fieldValue hother hset hmask =>
    obtain rfl := List.inj_on_of_nodup_map h.distinct hfield hother hname
    rw [← hvalue] at hset
    rw [Field.getLsbD_valueMask_of_decode hset] at hmask
    cases hmask

theorem last?_decodeFields (h : instruction.IsLaidOut) {field : Field}
    (hfield : field ∈ instruction.fields) :
    FieldValues.last? (instruction.decodeFields code) field.name = some (field.decode code) := by
  have hnames : (instruction.decodeFields code).map Prod.fst =
      instruction.fields.map Field.name := by
    rw [decodeFields, List.map_map]
    rfl
  exact FieldValues.last?_of_mem (hnames ▸ h.distinct) (List.mem_map.2 ⟨field, hfield, rfl⟩)

/-- The values of a code, written into another one, bring the bits of the fields with them. -/
theorem IsAssigned.getLsbD_eq (h : instruction.IsLaidOut) {start written : Code}
    (hassigned : instruction.IsAssigned (instruction.decodeFields code) start written) (bit : Nat) :
    written.getLsbD bit =
      if instruction.fieldMask.getLsbD bit then code.getLsbD bit else start.getLsbD bit := by
  by_cases hbit : instruction.fieldMask.getLsbD bit
  · rw [if_pos hbit]
    obtain ⟨field, hfield, hmem⟩ := (getLsbD_fieldMask h).1 hbit
    have hvalue : field.decode written = field.decode code := by
      rw [hassigned.fields field hfield, last?_decodeFields h hfield, Option.getD_some]
    exact (Field.decode_eq_decode (h.paired field hfield)).1 hvalue bit hmem
  · rw [if_neg hbit]
    apply hassigned.others
    intro field hfield _ hmem
    exact hbit ((getLsbD_fieldMask h).2 ⟨field, hfield, hmem⟩)

theorem encode_decodeFields (h : instruction.IsLaidOut) (hmatch : instruction.matchesFixedBits code) :
    instruction.encode (instruction.decodeFields code) =
      .ok (code &&& (instruction.fixed.mask ||| instruction.fieldMask)) := by
  unfold encode
  cases hrun : instruction.assignAll instruction.fixed.bits (instruction.decodeFields code) with
  | error fault =>
    obtain ⟨before, pair, after, hsplit, -, hrejects⟩ := (assignAll_eq_error h).1 hrun
    have hmem : pair ∈ instruction.decodeFields code := by rw [hsplit]; simp
    exact absurd hrejects (accepts_of_mem_decodeFields h hmem fault)
  | ok written =>
    have hassigned := isAssigned_of_assignAll h hrun
    have hfixed : code &&& instruction.fixed.mask = instruction.fixed.bits := by
      simpa [matchesFixedBits, FixedBits.isMatch] using hmatch
    refine congrArg Except.ok (BitVec.eq_of_getLsbD_eq fun bit _ => ?_)
    rw [hassigned.getLsbD_eq h, ← hfixed, BitVec.getLsbD_and, BitVec.getLsbD_and, BitVec.getLsbD_or]
    cases instruction.fieldMask.getLsbD bit with
    | true => rw [if_pos rfl, Bool.or_true, Bool.and_true]
    | false => rw [if_neg Bool.false_ne_true, Bool.or_false]

end decodeFields

/-- **Encoding undoes decoding**: of a code with the fixed bits, the values of its fields give back
    all bits that are fixed or belong to a field.  If the format names its free bits, these are all
    bits of the form. -/
theorem encode_decodeFields_of_compile {description : InstructionDescription}
    {instruction : Instruction} (h : compile description = .ok instruction) {code : Code}
    (hmatch : instruction.matchesFixedBits code) :
    instruction.encode (instruction.decodeFields code) =
        .ok (code &&& (instruction.fixed.mask ||| Code.union (instruction.fields.map Field.mask))) ∧
      ∀ format, Format.parse description.format = .ok format → format.NamesFreeBits →
        code &&& ~~~instruction.form.codeMask = 0 →
          instruction.encode (instruction.decodeFields code) = .ok code := by
  have hlaidOut := isLaidOut_of_compile h
  have hencode := encode_decodeFields hlaidOut hmatch
  refine ⟨hencode, fun format hformat hnames hinForm => ?_⟩
  obtain ⟨read, layout, hread, -, hlaysOut, hform, hfixed, hfields⟩ := exists_laysOut_of_compile h
  obtain rfl := Except.ok.inj (hformat.symm.trans hread)
  rw [hencode]
  refine congrArg Except.ok (BitVec.eq_of_getLsbD_eq fun bit _ => ?_)
  rw [BitVec.getLsbD_and, BitVec.getLsbD_or]
  cases hset : code.getLsbD bit with
  | false => rfl
  | true =>
    have hbit := Code.and_not_eq_zero.1 hinForm bit hset
    rw [Form.codeMask, Code.getLsbD_lowMask, decide_eq_true_iff, hform] at hbit
    have hcovered := hlaysOut.fixed_or_named hnames hbit.1
    rw [← hfixed, ← hfields, ← getLsbD_fieldMask hlaidOut] at hcovered
    rw [Bool.true_and, Bool.or_eq_true]
    exact hcovered

theorem encode_decodeFields_of_compile_addi4spn :
    ∃ instruction format, compile addi4spn = .ok instruction ∧
      instruction.matchesFixedBits 0x7a4 = true ∧
      Format.parse addi4spn.format = .ok format ∧ format.NamesFreeBits ∧
      (0x7a4 : Code) &&& ~~~instruction.form.codeMask = 0 ∧
      instruction.encode (instruction.decodeFields 0x7a4) = .ok 0x7a4 := by
  have hcompiled : (compile addi4spn).toOption.isSome := by decide +kernel
  have hparsed : (Format.parse addi4spn.format).toOption.isSome := by decide +kernel
  obtain ⟨instruction, hcompile⟩ := exists_eq_ok hcompiled
  obtain ⟨format, hformat⟩ := exists_eq_ok hparsed
  have hcode : (compile addi4spn).toOption.map (fun instruction =>
      (instruction.matchesFixedBits 0x7a4, (0x7a4 : Code) &&& ~~~instruction.form.codeMask)) =
        some (true, 0) := by
    decide +kernel
  have hnamed : (Format.parse addi4spn.format).toOption.map
      (fun format => decide format.NamesFreeBits) = some true := by
    decide +kernel
  rw [hcompile] at hcode
  rw [hformat] at hnamed
  obtain ⟨hmatch, hinForm⟩ := Prod.mk.inj (Option.some.inj hcode)
  have hnames : format.NamesFreeBits := of_decide_eq_true (Option.some.inj hnamed)
  obtain ⟨-, hback⟩ := encode_decodeFields_of_compile hcompile hmatch
  exact ⟨instruction, format, hcompile, hmatch, hformat, hnames, hinForm,
    hback format hformat hnames hinForm⟩

end Instruction

end IsaCodec
