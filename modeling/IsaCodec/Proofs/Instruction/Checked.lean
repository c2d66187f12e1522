import IsaCodec.Instruction.Compile
import IsaCodec.Instruction.Confirm
import IsaCodec.Proofs.Condition.Faults

/-! # Checked instructions

    The conditions of a compiled instruction were checked while it was
    compiled, against the instruction as it was without them.  A check looks
    at nothing but the fields and the form, so it holds of the whole
    instruction (`isChecked_of_compile`), and confirming a code fails only for
    want of a function that one of the two conditions calls
    (`IsChecked.confirm_failsOnly`). -/

namespace IsaCodec

open Traced

/-! ## Checks -/

theorem Operand.check_congr {a b : Instruction} (hfields : a.fields = b.fields)
    (hform : a.form = b.form) (operand : Operand) : operand.check a = operand.check b := by
  induction operand with
  | field name element =>
    unfold check Instruction.resolve Instruction.field?
    rw [hfields, hform]
  | immediate value => rfl
  | call name argument ih => exact ih

namespace Condition

mutual

/-- Instructions with the same fields and the same form **check alike**. -/
theorem check_congr {a b : Instruction} (hfields : a.fields = b.fields)
    (hform : a.form = b.form) (condition : Condition) :
    condition.check a = condition.check b := by
  match condition with
  | compare subject comparison object =>
    unfold check
    rw [subject.check_congr hfields hform, object.check_congr hfields hform]
  | inSet subject values => exact subject.check_congr hfields hform
  | inRange subject first last => exact subject.check_congr hfields hform
  | all children => exact checkAll_congr hfields hform children
  | any children => exact checkAll_congr hfields hform children

theorem checkAll_congr {a b : Instruction} (hfields : a.fields = b.fields)
    (hform : a.form = b.form) (children : List Condition) :
    checkAll a children = checkAll b children := by
  match children with
  | [] => rfl
  | child :: rest =>
    unfold checkAll
    rw [check_congr hfields hform child, checkAll_congr hfields hform rest]

end

end Condition

/-! ## Compilation -/

namespace Instruction

/-- The conditions of the instruction: the match condition, then the unmatch condition. -/
def conditions (instruction : Instruction) : List Condition :=
  instruction.matchCondition.toList ++ instruction.unmatchCondition.toList

/-- The functions that the conditions call. -/
def functions (instruction : Instruction) : List String :=
  instruction.conditions.flatMap Condition.functions

/-- The references of the conditions were checked against the instruction. -/
def IsChecked (instruction : Instruction) : Prop :=
  ∀ condition ∈ instruction.conditions, condition.check instruction = .ok ()

theorem check_of_compileCondition {instruction : Instruction} {text : Option String}
    {compiled : Option Condition} (h : instruction.compileCondition text = .ok compiled) :
    ∀ condition ∈ compiled.toList, condition.check instruction = .ok () := by
  intro condition hmem
  obtain rfl := Option.mem_toList.1 hmem
  cases text with
  | none => cases h
  | some text =>
    obtain ⟨read, -, hrest⟩ := bind_eq_ok.1 h
    obtain ⟨⟨⟩, hvalid, heq⟩ := bind_eq_ok.1 hrest
    obtain rfl := Option.some.inj (pure_eq_ok.1 heq)
    exact mapError_eq_ok.1 hvalid

theorem isChecked_of_withConditions {instruction compiled : Instruction}
    {matchText unmatchText : Option String}
    (h : instruction.withConditions matchText unmatchText = .ok compiled) :
    compiled.IsChecked := by
  obtain ⟨matchCondition, hmatch, hrest⟩ := bind_eq_ok.1 h
  obtain ⟨unmatchCondition, hunmatch, heq⟩ := bind_eq_ok.1 hrest
  obtain rfl := pure_eq_ok.1 heq
  intro condition hmem
  -- The fields and the form are those against which the conditions were checked.
  have hsame : condition.check { instruction with matchCondition, unmatchCondition } =
      condition.check instruction := condition.check_congr (by rfl) (by rfl)
  rw [hsame]
  rcases List.mem_append.1 hmem with hmatched | hunmatched
  · exact check_of_compileCondition hmatch condition hmatched
  · exact check_of_compileCondition hunmatch condition hunmatched

/-- **Compilation checks** the conditions. -/
theorem isChecked_of_compile {description : InstructionDescription} {instruction : Instruction}
    (h : compile description = .ok instruction) : instruction.IsChecked := by
  unfold compile at h
  cases hlayout : Layout.compile description.name description.format description.fieldExtras with
  | error fault => simp [hlayout] at h
  | ok layout =>
    rw [hlayout] at h
    exact isChecked_of_withConditions (mapError_eq_ok.1 h)

/-! ## Confirmation -/

variable {instruction : Instruction} (registry : Registry)

theorem test_failsOnly (otherwise : Bool) (code : Code) {condition : Option Condition}
    (hcheck : ∀ c ∈ condition.toList, c.check instruction = .ok ())
    (hmem : condition.toList ⊆ instruction.conditions) :
    FailsOnly (registry.Misses instruction instruction.functions)
      (instruction.test registry otherwise code condition) := by
  cases condition with
  | none => exact failsOnly_pure _
  | some c =>
    have hc : c ∈ (some c).toList := Option.mem_toList.2 rfl
    apply Registry.failsOnly_of_subset (c.evaluate_failsOnly registry (hcheck c hc) code)
    exact fun function hfunction => List.mem_flatMap.2 ⟨c, hmem hc, hfunction⟩

/-- Confirming a code **only misses functions**. -/
theorem IsChecked.confirmConditions_failsOnly (h : instruction.IsChecked) (code : Code) :
    FailsOnly (registry.Misses instruction instruction.functions)
      (instruction.confirmConditions registry code) := by
  have hmatch := List.subset_append_left instruction.matchCondition.toList
    instruction.unmatchCondition.toList
  have hunmatch := List.subset_append_right instruction.matchCondition.toList
    instruction.unmatchCondition.toList
  apply (test_failsOnly registry true code (fun c hc => h c (hmatch hc)) hmatch).bind
  intro accepted _
  cases accepted with
  | false => exact failsOnly_pure _
  | true =>
    apply (test_failsOnly registry false code (fun c hc => h c (hunmatch hc)) hunmatch).bind
    intro rejected _
    exact failsOnly_pure _

theorem IsChecked.confirm_failsOnly (h : instruction.IsChecked) (code : Code) :
    FailsOnly (registry.Misses instruction instruction.functions)
      (instruction.confirm registry code) := by
  unfold confirm
  split
  · exact h.confirmConditions_failsOnly registry code
  · exact failsOnly_pure _

end Instruction

end IsaCodec
