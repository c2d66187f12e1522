import IsaCodec.Condition.Evaluation
import IsaCodec.Proofs.Instruction.Elements

/-! # References of conditions

    A condition sees only the fields that it names, and of a field that it
    names with an element only the bits in that element.  Two codes that
    agree on these bits cannot be told apart by the condition, whatever their
    other bits are.

    A registered function is given the whole code with its argument, so this
    is said of functions that do not look at it.

    The evaluation is run on both codes side by side.  The induction takes
    along that the codes agree on the references of each part, also of those
    parts that are not reached. -/

namespace IsaCodec

/-! ## References -/

/-- The fields that an operand refers to, each with the element if one is named. -/
def Operand.references : Operand → List (String × Option Nat)
  | field name element => [(name, element)]
  | immediate _ => []
  | call _ argument => argument.references

namespace Condition

mutual

/-- The fields that a condition refers to, in order of writing. -/
def references : Condition → List (String × Option Nat)
  | compare subject _ object => subject.references ++ object.references
  | inSet subject _ => subject.references
  | inRange subject _ _ => subject.references
  | all children => referencesOfAll children
  | any children => referencesOfAll children

/-- The fields that some conditions refer to. -/
def referencesOfAll : List Condition → List (String × Option Nat)
  | [] => []
  | child :: rest => child.references ++ referencesOfAll rest

end

end Condition

/-- The instruction bits that a reference is about: those of the field, or those that it has in
    one element. -/
def Instruction.bitsRead (instruction : Instruction) (name : String) (element : Option Nat) :
    List Nat :=
  match instruction.field? name with
  | none => []
  | some field =>
    match element with
    | none => field.bits
    | some index => field.bits.filter (· ∈ instruction.form.elementBits index)

/-- Two codes agree on the bits that references are about. -/
def Instruction.AgreeOn (instruction : Instruction) (references : List (String × Option Nat))
    (code code' : Code) : Prop :=
  ∀ reference ∈ references, ∀ bit ∈ instruction.bitsRead reference.1 reference.2,
    code.getLsbD bit = code'.getLsbD bit

/-- The functions depend on their argument only, and not on the instruction and the code. -/
def Registry.IsContextFree (registry : Registry) : Prop :=
  ∀ name f, registry.get? name = some f → ∀ argument context context',
    f argument context = f argument context'

namespace Instruction

variable {instruction : Instruction} {references references' : List (String × Option Nat)}
  {code code' : Code}

theorem agreeOn_append :
    instruction.AgreeOn (references ++ references') code code' ↔
      instruction.AgreeOn references code code' ∧ instruction.AgreeOn references' code code' :=
  List.forall_mem_append

/-- What compilation guarantees about the bits of fields: those of the value are paired with them
    one to one, and each is in the element of its subfield. -/
structure IsDivided (instruction : Instruction) : Prop where
  paired : ∀ field ∈ instruction.fields, field.IsPaired
  inside : ∀ field ∈ instruction.fields, field.IsInsideElements instruction.form

theorem isDivided_of_compile {description : InstructionDescription}
    (h : compile description = .ok instruction) : instruction.IsDivided :=
  ⟨(isLaidOut_of_compile h).paired, isInsideElements_of_compile h⟩

end Instruction

/-! ## Evaluation -/

section evaluation

variable {instruction : Instruction} {registry : Registry} {code code' : Code}

/-- A reference gives the same value in codes that agree on its bits. -/
theorem Instruction.valueOf_congr (h : instruction.IsDivided) {name : String}
    {element : Option Nat} (hagree : instruction.AgreeOn [(name, element)] code code') :
    instruction.valueOf name element code = instruction.valueOf name element code' := by
  -- The field is looked up once for its value and once for the bits that are read.
  have hbits := hagree _ List.mem_cons_self
  unfold bitsRead at hbits
  unfold valueOf resolve
  cases hfound : instruction.field? name with
  | none => rfl
  | some field =>
    have hmem : field ∈ instruction.fields := List.mem_of_find?_eq_some hfound
    rw [hfound] at hbits
    cases element with
    | none => exact congrArg _ ((Field.decode_eq_decode (h.paired field hmem)).2 hbits)
    | some index =>
      refine congrArg _ (Field.decodeElement_eq_decodeElement (h.inside field hmem) ?_)
      intro bit hbit helement
      exact hbits bit (List.mem_filter.2 ⟨hbit, decide_eq_true helement⟩)

/-- A call for another code gives the same value, though the code is handed to the function. -/
theorem Registry.IsContextFree.apply_congr (hfree : registry.IsContextFree) {name : String}
    {f : Code → Context → Code} (hfind : registry.find instruction name = .ok f) (argument : Code) :
    (instruction.apply name f code argument).outcome =
      (instruction.apply name f code' argument).outcome := by
  unfold Registry.find at hfind
  cases hget : registry.get? name with
  | none => simp [hget] at hfind
  | some g =>
    simp only [hget, Except.ok.injEq] at hfind
    subst hfind
    exact congrArg Except.ok (hfree name g hget argument _ _)

/-- An operand has the same value in codes that agree on its references. -/
theorem Operand.value_congr (h : instruction.IsDivided) (hfree : registry.IsContextFree)
    {operand : Operand} (hagree : instruction.AgreeOn operand.references code code') :
    (operand.value registry instruction code).outcome =
      (operand.value registry instruction code').outcome := by
  induction operand with
  | field name element => exact Instruction.valueOf_congr h hagree
  | immediate value => rfl
  | call name argument ih =>
    -- The function is the same, its argument is, and so is what it gives.
    refine Traced.outcome_bind_congr rfl fun f hfind => ?_
    refine Traced.outcome_bind_congr (ih hagree) fun x _ => ?_
    exact hfree.apply_congr hfind x

namespace Condition

/-- A test of an operand gives the same answer. -/
theorem test_congr (h : instruction.IsDivided) (hfree : registry.IsContextFree)
    {subject : Operand} (hagree : instruction.AgreeOn subject.references code code')
    (test : Code → Bool) :
    (subject.value registry instruction code >>= fun a => pure (test a)).outcome =
      (subject.value registry instruction code' >>= fun a => pure (test a)).outcome :=
  Traced.outcome_bind_congr (Operand.value_congr h hfree hagree) fun _ _ => rfl

mutual

/-- A condition is evaluated alike for codes that **agree on its references**. -/
theorem evaluate_congr (h : instruction.IsDivided) (hfree : registry.IsContextFree)
    {condition : Condition} (hagree : instruction.AgreeOn condition.references code code') :
    (condition.evaluate registry instruction code).outcome =
      (condition.evaluate registry instruction code').outcome := by
  match condition with
  | compare subject comparison object =>
    obtain ⟨hsubject, hobject⟩ := Instruction.agreeOn_append.1 hagree
    refine Traced.outcome_bind_congr (Operand.value_congr h hfree hsubject) fun a _ => ?_
    exact test_congr h hfree hobject (comparison.holds a)
  | inSet subject values => exact test_congr h hfree hagree values.contains
  | inRange subject first last => exact test_congr h hfree hagree (isBetween first last)
  | all children => exact evaluateUntil_congr h hfree false hagree
  | any children => exact evaluateUntil_congr h hfree true hagree

theorem evaluateUntil_congr (h : instruction.IsDivided) (hfree : registry.IsContextFree)
    (decisive : Bool) {children : List Condition}
    (hagree : instruction.AgreeOn (referencesOfAll children) code code') :
    (evaluateUntil registry instruction decisive code children).outcome =
      (evaluateUntil registry instruction decisive code' children).outcome := by
  match children with
  | [] => rfl
  | child :: rest =>
    obtain ⟨hchild, hrest⟩ := Instruction.agreeOn_append.1 hagree
    refine Traced.outcome_bind_congr (evaluate_congr h hfree hchild) fun value _ => ?_
    -- Both evaluations stop at the same child.
    by_cases hvalue : value = decisive
    · rw [if_pos hvalue, if_pos hvalue]
    · rw [if_neg hvalue, if_neg hvalue]
      exact evaluateUntil_congr h hfree decisive hrest

end

/-- **Conditions see only what they name**: for a compiled instruction and functions that look at
    their argument only, codes that agree on the references of a condition give the same result
    or the same error.  The condition need not be valid. -/
theorem evaluate_congr_of_compile {description : InstructionDescription}
    (hcompile : Instruction.compile description = .ok instruction)
    (hfree : registry.IsContextFree) {condition : Condition}
    (hagree : instruction.AgreeOn condition.references code code') :
    (condition.evaluate registry instruction code).outcome =
      (condition.evaluate registry instruction code').outcome :=
  evaluate_congr (Instruction.isDivided_of_compile hcompile) hfree hagree

/-- To count bits, no more than the argument is needed. -/
theorem isContextFree_registry : Sample.registry.IsContextFree := by
  intro name f hget argument context context'
  change List.lookup name [("setbit_count", fun argument _ => Sample.setBitCount argument)] =
    some f at hget
  rw [List.lookup_cons, List.lookup_nil] at hget
  cases hname : name == "setbit_count" with
  | false => simp [hname] at hget
  | true =>
    rw [hname] at hget
    obtain rfl := Option.some.inj hget
    rfl

/-- Are more than three of the low bits of the immediate set? -/
def countsLowBits : Condition :=
  .compare (.call "setbit_count" (.field "imm12" (some 1))) .gt (.immediate 3)

/-- Two codes that differ in a register and in the highest bit of the immediate, which is in the
    element that is not named. -/
theorem evaluate_congr_of_compile_addImmediate :
    ∃ instruction, Instruction.compile Instruction.addImmediate = .ok instruction ∧
      countsLowBits.validate instruction = .ok () ∧ Sample.registry.IsContextFree ∧
      instruction.AgreeOn countsLowBits.references 0xf5037478 0xf10d7478 ∧
      (countsLowBits.evaluate Sample.registry instruction 0xf5037478).outcome = .ok true ∧
      (countsLowBits.evaluate Sample.registry instruction 0xf5037478).outcome =
        (countsLowBits.evaluate Sample.registry instruction 0xf10d7478).outcome := by
  have hvalues : (Instruction.compile Instruction.addImmediate).toOption.map (fun instruction =>
      ((countsLowBits.validate instruction).toOption, instruction.bitsRead "imm12" (some 1),
        (countsLowBits.evaluate Sample.registry instruction 0xf5037478).outcome.toOption)) =
      some (some (), [14, 13, 12, 7, 6, 5, 4, 3, 2, 1, 0], some true) := by
    decide +kernel
  obtain ⟨instruction, hcompile, hvalues⟩ := Option.map_eq_some_iff.1 hvalues
  obtain ⟨hvalid, hvalues⟩ := Prod.mk.inj hvalues
  obtain ⟨hbits, hresult⟩ := Prod.mk.inj hvalues
  have hcompile := toOption_eq_some.1 hcompile
  have hagree : instruction.AgreeOn countsLowBits.references 0xf5037478 0xf10d7478 := by
    refine List.forall_mem_singleton.2 ?_
    rw [hbits]
    decide
  exact ⟨instruction, hcompile, toOption_eq_some.1 hvalid, isContextFree_registry, hagree,
    toOption_eq_some.1 hresult, evaluate_congr_of_compile hcompile isContextFree_registry hagree⟩

end Condition

end evaluation

end IsaCodec
