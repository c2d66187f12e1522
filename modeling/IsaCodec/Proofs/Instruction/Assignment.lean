import IsaCodec.Proofs.Instruction.Meaning
import IsaCodec.Proofs.Layout.Writing

/-! # Writing values into codes

    Values are written into a code one after the other.  The fields of a
    compiled instruction have bits of their own, so a value that is written
    disturbs no other field.

    * **`IsLaidOut`** — what compilation guarantees about the fields.
    * **`assign_eq_error`, `assign_eq_ok`** — what one pair of a name and a
      value does.
    * **`assignAll_eq_error`** — the first pair that is rejected stops the
      writing.
    * **`isAssigned_of_assignAll`** — otherwise every field has the value of
      the last pair with its name. -/

namespace IsaCodec

/-! ## Pairs of names and values -/

namespace FieldValues

/-- The value of the last pair with a name. -/
def last? (values : FieldValues) (name : String) : Option Code :=
  get? values.reverse name

theorem last?_singleton (name : String) (value : Code) (other : String) :
    last? [(name, value)] other = if other = name then some value else none := by
  show List.lookup other [(name, value)] = _
  rw [List.lookup_cons, List.lookup_nil]
  by_cases hname : other = name
  · rw [if_pos hname, beq_iff_eq.2 hname]
  · rw [if_neg hname, beq_false_of_ne hname]

theorem last?_append (first rest : FieldValues) (name : String) :
    last? (first ++ rest) name = (last? rest name).or (last? first name) := by
  unfold last? get?
  rw [List.reverse_append, List.lookup_append]

/-- If no name is given twice, the order of the pairs does not matter. -/
theorem last?_of_mem {values : FieldValues} (hnodup : (values.map Prod.fst).Nodup) {name : String}
    {value : Code} (hmem : (name, value) ∈ values) : last? values name = some value := by
  induction values with
  | nil => cases hmem
  | cons pair rest ih =>
    rw [List.map_cons, List.nodup_cons] at hnodup
    obtain ⟨hpair, hrest⟩ := hnodup
    have hlast : last? (pair :: rest) name = (last? rest name).or (last? [pair] name) :=
      last?_append [pair] rest name
    rw [hlast]
    rcases List.mem_cons.1 hmem with rfl | hmem
    · have hnone : last? rest name = none := by
        rw [last?, get?, List.lookup_eq_none_iff]
        intro other hother
        rw [bne_iff_ne]
        rintro rfl
        exact hpair (List.mem_map.2 ⟨other, List.mem_reverse.1 hother, rfl⟩)
      rw [hnone, Option.none_or, last?_singleton, if_pos rfl]
    · rw [ih hrest hmem, Option.some_or]

end FieldValues

namespace Instruction

/-! ## Fields of compiled instructions -/

/-- The fields of an instruction have different names, and bits of their own inside its form. -/
structure IsLaidOut (instruction : Instruction) : Prop where
  width : instruction.form.bitLen ≤ 64
  distinct : (instruction.fields.map Field.name).Nodup
  paired : ∀ field ∈ instruction.fields, field.IsPaired
  inForm : ∀ field ∈ instruction.fields, ∀ bit ∈ field.bits, bit < instruction.form.bitLen
  disjoint : ∀ a ∈ instruction.fields, ∀ b ∈ instruction.fields, a.name ≠ b.name →
    a.bits.Disjoint b.bits
  /-- No bit above the form is fixed to one. -/
  above : ∀ bit, instruction.form.bitLen ≤ bit → instruction.fixed.bits.getLsbD bit = false

theorem exists_laysOut_of_compile {description : InstructionDescription} {instruction : Instruction}
    (h : compile description = .ok instruction) :
    ∃ format layout, Format.parse description.format = .ok format ∧ format.IsProper ∧
      format.LaysOut layout ∧ instruction.form = layout.form ∧ instruction.fixed = layout.fixed ∧
      instruction.fields = layout.fields := by
  obtain ⟨layout, hlayout, hparts⟩ := layout_of_compile h
  obtain ⟨format, hformat, hlayout⟩ := Layout.compile_eq_ok.1 hlayout
  have hproper := Format.isProper_of_parse hformat
  exact ⟨format, layout, hformat, hproper, Layout.laysOut_of_ofFormat_eq_ok hproper hlayout, hparts⟩

theorem isLaidOut_of_compile {description : InstructionDescription} {instruction : Instruction}
    (h : compile description = .ok instruction) : instruction.IsLaidOut := by
  obtain ⟨format, layout, -, -, hlaysOut, hform, hfixed, hfields⟩ := exists_laysOut_of_compile h
  have hbits : ∀ field ∈ layout.fields, ∀ bit ∈ field.bits, bit < format.bitLen := by
    intro field hfield bit hbit
    rw [(hlaysOut.declares field hfield).bits] at hbit
    exact Format.lt_of_mem_bitsOf hbit
  have hwidth := hlaysOut.width
  refine ⟨?_, ?_, ?_, ?_, ?_, ?_⟩
  · rw [hform, hlaysOut.bitLen_eq]
    exact hwidth
  · rw [hfields]
    exact hlaysOut.nodup
  · intro field hfield
    rw [hfields] at hfield
    have hdeclares := hlaysOut.declares field hfield
    refine ⟨?_, hdeclares.nodup, ?_, hdeclares.lt⟩
    · rw [hdeclares.bits]
      exact Format.nodup_bitsIn
    · intro bit hbit
      exact Nat.lt_of_lt_of_le (hbits field hfield bit hbit) hwidth
  · intro field hfield
    rw [hfields] at hfield
    rw [hform, hlaysOut.bitLen_eq]
    exact hbits field hfield
  · intro a ha b hb hne
    rw [hfields] at ha hb
    rw [(hlaysOut.declares a ha).bits, (hlaysOut.declares b hb).bits]
    exact Format.disjoint_bitsIn hne
  · intro bit hbit
    rw [hform, hlaysOut.bitLen_eq] at hbit
    rw [hfixed, hlaysOut.fixed, FixedBits.ofPattern_eq]
    exact FixedBits.getLsbD_bitsWhere_of_le _ hbit

section IsLaidOut

variable {instruction : Instruction} {name : String} {field : Field}

theorem field?_eq_none : instruction.field? name = none ↔
    name ∉ instruction.fields.map Field.name := by
  simp [field?, List.find?_eq_none]

/-- With different names, a field is the only one of its name. -/
theorem IsLaidOut.field?_eq_some (h : instruction.IsLaidOut) :
    instruction.field? name = some field ↔ field ∈ instruction.fields ∧ field.name = name := by
  constructor
  · intro hfield
    have hname := List.find?_some hfield
    exact ⟨List.mem_of_find?_eq_some hfield, by simpa using hname⟩
  · rintro ⟨hmem, hname⟩
    cases hfound : instruction.field? name with
    | none =>
      rw [field?_eq_none] at hfound
      exact absurd (List.mem_map.2 ⟨field, hmem, hname⟩) hfound
    | some found =>
      have hfound' : found.name = name := by simpa using List.find?_some hfound
      have heq := List.inj_on_of_nodup_map h.distinct (List.mem_of_find?_eq_some hfound) hmem
        (hfound'.trans hname.symm)
      rw [heq]

end IsLaidOut

/-! ## One pair -/

/-- What is wrong with a pair of a name and a value. -/
inductive Rejects (instruction : Instruction) : String × Code → LayoutFault → Prop where
  /-- No field has the name. -/
  | undefinedField {name : String} {value : Code}
      (hname : name ∉ instruction.fields.map Field.name) :
      Rejects instruction (name, value) (.undefinedField name)
  /-- The value has a bit that the field does not have. -/
  | fieldValue {field : Field} {value : Code} {bit : Nat} (hfield : field ∈ instruction.fields)
      (hset : value.getLsbD bit = true) (hmask : field.valueMask.getLsbD bit = false) :
      Rejects instruction (field.name, value) (.fieldValue field.name value)

/-- Nothing is wrong with a pair. -/
def Accepts (instruction : Instruction) (pair : String × Code) : Prop :=
  ∀ fault, ¬instruction.Rejects pair fault

section assign

variable {instruction : Instruction} {name : String} {value code code' : Code}
  {fault : LayoutFault}

theorem assign_of_not_mem (hname : name ∉ instruction.fields.map Field.name) :
    instruction.assign code name value = .error (.undefinedField name) := by
  rw [assign, field?_eq_none.2 hname]

theorem assign_of_mem (h : instruction.IsLaidOut) {field : Field}
    (hfield : field ∈ instruction.fields) :
    instruction.assign code field.name value =
      if value &&& ~~~field.valueMask ≠ 0 then .error (.fieldValue field.name value)
      else .ok (field.encode value code) := by
  rw [assign, h.field?_eq_some.2 ⟨hfield, rfl⟩]

/-- Whether a value fits does not depend on the code. -/
theorem assign_eq_error (h : instruction.IsLaidOut) :
    instruction.assign code name value = .error fault ↔ instruction.Rejects (name, value) fault := by
  constructor
  · intro herror
    by_cases hname : name ∈ instruction.fields.map Field.name
    · obtain ⟨field, hfield, rfl⟩ := List.mem_map.1 hname
      rw [assign_of_mem h hfield] at herror
      by_cases hfits : value &&& ~~~field.valueMask = 0
      · rw [if_neg (not_not_intro hfits)] at herror
        cases herror
      · rw [if_pos hfits] at herror
        obtain rfl := Except.error.inj herror
        simp only [Code.and_not_eq_zero, not_forall, Bool.not_eq_true] at hfits
        obtain ⟨bit, hset, hmask⟩ := hfits
        exact .fieldValue hfield hset hmask
    · rw [assign_of_not_mem hname] at herror
      obtain rfl := Except.error.inj herror
      exact .undefinedField hname
  · intro hrejects
    cases hrejects with
    | undefinedField hname => exact assign_of_not_mem hname
    | fieldValue hfield hset hmask =>
      rw [assign_of_mem h hfield, if_pos]
      intro hfits
      rw [Code.and_not_eq_zero.1 hfits _ hset] at hmask
      cases hmask

theorem assign_eq_ok (h : instruction.IsLaidOut) :
    instruction.assign code name value = .ok code' ↔
      ∃ field ∈ instruction.fields, field.name = name ∧
        (∀ bit, value.getLsbD bit = true → field.valueMask.getLsbD bit = true) ∧
        field.encode value code = code' := by
  constructor
  · intro hok
    by_cases hname : name ∈ instruction.fields.map Field.name
    · obtain ⟨field, hfield, rfl⟩ := List.mem_map.1 hname
      rw [assign_of_mem h hfield] at hok
      by_cases hfits : value &&& ~~~field.valueMask = 0
      · rw [if_neg (not_not_intro hfits)] at hok
        exact ⟨field, hfield, rfl, Code.and_not_eq_zero.1 hfits, Except.ok.inj hok⟩
      · rw [if_pos hfits] at hok
        cases hok
    · rw [assign_of_not_mem hname] at hok
      cases hok
  · rintro ⟨field, hfield, rfl, hfits, rfl⟩
    rw [assign_of_mem h hfield, if_neg (not_not_intro (Code.and_not_eq_zero.2 hfits))]

end assign

/-! ## Lists of pairs -/

/-- A fault of the first pair that is rejected. -/
def RejectsFirst (instruction : Instruction) (values : FieldValues) (fault : LayoutFault) : Prop :=
  ∃ before pair after, values = before ++ pair :: after ∧
    (∀ earlier ∈ before, instruction.Accepts earlier) ∧ instruction.Rejects pair fault

/-- What becomes of a code when values are written into it. -/
structure IsAssigned (instruction : Instruction) (values : FieldValues) (code code' : Code) :
    Prop where
  /-- A field has the last value that is given for it, or else the one that it had. -/
  fields : ∀ field ∈ instruction.fields,
    field.decode code' = (values.last? field.name).getD (field.decode code)
  /-- Other bits than those of the fields that are named stay as they are. -/
  others : ∀ bit, (∀ field ∈ instruction.fields, field.name ∈ values.map Prod.fst →
    bit ∉ field.bits) → code'.getLsbD bit = code.getLsbD bit

section assignAll

variable {instruction : Instruction} {values : FieldValues} {code code' : Code}
  {fault : LayoutFault}

theorem assignAll_cons (instruction : Instruction) (code : Code) (name : String) (value : Code)
    (rest : FieldValues) :
    instruction.assignAll code ((name, value) :: rest) =
      instruction.assign code name value >>= fun code => instruction.assignAll code rest := rfl

theorem not_rejectsFirst_nil : ¬instruction.RejectsFirst [] fault := by
  rintro ⟨before, pair, after, hsplit, -⟩
  cases before with
  | nil => cases hsplit
  | cons first before => cases hsplit

/-- Either the first pair of a list is rejected or it is a pair of the rest. -/
theorem rejectsFirst_cons {pair : String × Code} :
    instruction.RejectsFirst (pair :: values) fault ↔
      instruction.Rejects pair fault ∨
        instruction.Accepts pair ∧ instruction.RejectsFirst values fault := by
  constructor
  · rintro ⟨before, rejected, after, hsplit, haccepts, hrejects⟩
    cases before with
    | nil =>
      obtain ⟨rfl, rfl⟩ := List.cons.inj hsplit
      exact .inl hrejects
    | cons first before =>
      obtain ⟨rfl, rfl⟩ := List.cons.inj hsplit
      obtain ⟨hfirst, hbefore⟩ := List.forall_mem_cons.1 haccepts
      exact .inr ⟨hfirst, before, rejected, after, rfl, hbefore, hrejects⟩
  · rintro (hrejects | ⟨haccepts, before, rejected, after, rfl, hbefore, hrejects⟩)
    · exact ⟨[], pair, values, rfl, by simp, hrejects⟩
    · exact ⟨pair :: before, rejected, after, rfl, List.forall_mem_cons.2 ⟨haccepts, hbefore⟩,
        hrejects⟩

/-- Writing stops at the first pair that is rejected. -/
theorem assignAll_eq_error (h : instruction.IsLaidOut) :
    instruction.assignAll code values = .error fault ↔
      instruction.RejectsFirst values fault := by
  induction values generalizing code with
  | nil =>
    constructor
    · intro herror
      cases herror
    · intro hrejects
      exact absurd hrejects not_rejectsFirst_nil
  | cons pair rest ih =>
    obtain ⟨name, value⟩ := pair
    rw [assignAll_cons, rejectsFirst_cons]
    cases hassign : instruction.assign code name value with
    | error first =>
      have hfirst := (assign_eq_error h).1 hassign
      have honly : instruction.assign code name value = .error fault ↔
          instruction.Rejects (name, value) fault := assign_eq_error h
      rw [← honly, hassign, Except.error.injEq]
      constructor
      · intro hstop
        exact .inl (Except.error.inj hstop)
      · rintro (rfl | ⟨haccepts, -⟩)
        · rfl
        · exact absurd hfirst (haccepts first)
    | ok code₁ =>
      have haccepts : instruction.Accepts (name, value) := by
        intro other hother
        rw [(assign_eq_error h).2 hother] at hassign
        cases hassign
      show instruction.assignAll code₁ rest = .error fault ↔ _
      rw [ih]
      constructor
      · intro hrest
        exact .inr ⟨haccepts, hrest⟩
      · rintro (hrejects | ⟨-, hrest⟩)
        · exact absurd hrejects (haccepts fault)
        · exact hrest

theorem exists_rejectsFirst_iff :
    (∃ fault, instruction.RejectsFirst values fault) ↔
      ∃ pair ∈ values, ∃ fault, instruction.Rejects pair fault := by
  induction values with
  | nil => simp [not_rejectsFirst_nil]
  | cons pair rest ih =>
    simp only [rejectsFirst_cons, exists_or, exists_and_left, ih, List.exists_mem_cons_iff]
    constructor
    · rintro (hpair | ⟨-, hrest⟩)
      · exact .inl hpair
      · exact .inr hrest
    · rintro (hpair | hrest)
      · exact .inl hpair
      · by_cases hpair : ∃ fault, instruction.Rejects pair fault
        · exact .inl hpair
        · exact .inr ⟨not_exists.1 hpair, hrest⟩

/-- One value is read back, and no bit outside its field is touched. -/
theorem isAssigned_encode (h : instruction.IsLaidOut) {field : Field} {value : Code}
    (hfield : field ∈ instruction.fields)
    (hfits : ∀ bit, value.getLsbD bit = true → field.valueMask.getLsbD bit = true) :
    instruction.IsAssigned [(field.name, value)] code (field.encode value code) := by
  constructor
  · intro other hother
    rw [FieldValues.last?_singleton]
    by_cases hname : other.name = field.name
    · obtain rfl := List.inj_on_of_nodup_map h.distinct hother hfield hname
      rw [if_pos rfl, Option.getD_some]
      exact Field.decode_encode (h.paired other hfield) hfits
    · rw [if_neg hname, Option.getD_none, Field.decode_eq_decode (h.paired other hother)]
      intro bit hbit
      exact Field.getLsbD_encode_of_not_mem (h.disjoint other hother field hfield hname hbit)
  · intro bit hbit
    exact Field.getLsbD_encode_of_not_mem (hbit field hfield (by simp))

/-- What is written later wins. -/
theorem IsAssigned.trans {first rest : FieldValues} {code₁ code₂ : Code}
    (h₁ : instruction.IsAssigned first code code₁) (h₂ : instruction.IsAssigned rest code₁ code₂) :
    instruction.IsAssigned (first ++ rest) code code₂ := by
  constructor
  · intro field hfield
    rw [h₂.fields field hfield, h₁.fields field hfield, FieldValues.last?_append]
    cases FieldValues.last? rest field.name <;> rfl
  · intro bit hbit
    rw [h₂.others bit, h₁.others bit]
    · intro field hfield hname
      exact hbit field hfield (by simp [hname])
    · intro field hfield hname
      exact hbit field hfield (by simp [hname])

theorem isAssigned_of_assignAll (h : instruction.IsLaidOut)
    (hok : instruction.assignAll code values = .ok code') :
    instruction.IsAssigned values code code' := by
  induction values generalizing code with
  | nil =>
    obtain rfl := Except.ok.inj hok
    exact ⟨fun field _ => rfl, fun bit _ => rfl⟩
  | cons pair rest ih =>
    obtain ⟨name, value⟩ := pair
    rw [assignAll_cons] at hok
    obtain ⟨code₁, hassign, hrest⟩ := bind_eq_ok.1 hok
    obtain ⟨field, hfield, rfl, hfits, rfl⟩ := (assign_eq_ok h).1 hassign
    exact (isAssigned_encode h hfield hfits).trans (ih hrest)

end assignAll

end Instruction

end IsaCodec
