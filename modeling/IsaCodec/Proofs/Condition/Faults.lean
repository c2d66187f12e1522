import IsaCodec.Condition.Evaluation
import IsaCodec.Proofs.Outcome
import IsaCodec.Proofs.Traced.Faults

/-! # Faults of conditions

    The references of a condition are checked once, against the instruction;
    functions are looked up when the condition is evaluated.  So a condition
    that was checked can only lack a function.

    The check and the evaluation go over the same tree, and the induction
    takes both along: each field is resolved in the check as it is in the
    evaluation, also one inside the argument of a function. -/

namespace IsaCodec

open Traced

/-! ## Functions -/

/-- The functions that the operand calls, the outermost one first. -/
def Operand.functions : Operand → List String
  | field _ _ => []
  | immediate _ => []
  | call name argument => name :: argument.functions

namespace Condition

mutual

/-- The functions that the condition calls, in order of writing. -/
def functions : Condition → List String
  | compare subject _ object => subject.functions ++ object.functions
  | inSet subject _ => subject.functions
  | inRange subject _ _ => subject.functions
  | all children => functionsOfAll children
  | any children => functionsOfAll children

/-- The functions that some conditions call. -/
def functionsOfAll : List Condition → List String
  | [] => []
  | child :: rest => child.functions ++ functionsOfAll rest

end

end Condition

/-- The error is that one of the functions is not registered. -/
def Registry.Misses (registry : Registry) (instruction : Instruction) (functions : List String)
    (error : ConditionError) : Prop :=
  ∃ function ∈ functions, registry.contains function = false ∧
    error = ⟨instruction.name, .undefinedFunction function⟩

namespace Registry

variable {registry : Registry} {instruction : Instruction} {error : ConditionError}

/-- More functions may be missing from a larger list. -/
theorem failsOnly_of_subset {functions functions' : List String} {α : Type}
    {computation : Traced ConditionError α}
    (h : FailsOnly (registry.Misses instruction functions) computation)
    (hsubset : functions ⊆ functions') :
    FailsOnly (registry.Misses instruction functions') computation := by
  refine h.imp fun error hmisses => ?_
  obtain ⟨function, hfunction, hmissing, herror⟩ := hmisses
  exact ⟨function, hsubset hfunction, hmissing, herror⟩

theorem misses_of_find {function : String} {functions : List String}
    (h : registry.find instruction function = .error error) (hmem : function ∈ functions) :
    registry.Misses instruction functions error := by
  unfold find at h
  cases hget : registry.get? function with
  | some f => simp [hget] at h
  | none =>
    simp only [hget, Except.error.injEq] at h
    refine ⟨function, hmem, ?_, h.symm⟩
    unfold Dictionary.contains
    rw [hget]
    rfl

end Registry

/-! ## Evaluation -/

variable (registry : Registry) {instruction : Instruction}

/-- A field that was resolved has a value in every code. -/
theorem Operand.value_failsOnly {operand : Operand} (hcheck : operand.check instruction = .ok ())
    (code : Code) :
    FailsOnly (registry.Misses instruction operand.functions)
      (operand.value registry instruction code) := by
  induction operand with
  | field name element =>
    obtain ⟨field, hfield, -⟩ := bind_eq_ok.1 hcheck
    apply failsOnly_ofExcept
    intro fault hfault
    unfold Instruction.valueOf at hfault
    rw [hfield] at hfault
    cases element <;> cases hfault
  | immediate value => exact failsOnly_pure value
  | call name argument ih =>
    -- The function is looked up before its argument is computed; calling it gives a value.
    have hfind : FailsOnly (registry.Misses instruction (name :: argument.functions))
        (Traced.ofExcept (registry.find instruction name)) := by
      apply failsOnly_ofExcept
      intro fault hfault
      exact Registry.misses_of_find hfault List.mem_cons_self
    have hargument := Registry.failsOnly_of_subset (ih hcheck)
      (List.subset_cons_self name argument.functions)
    apply hfind.bind
    intro f _
    apply hargument.bind
    intro x _
    exact failsOnly_call _ _

namespace Condition

/-- A value that is tested is computed first. -/
theorem failsOnly_test {subject : Operand} {functions : List String}
    (hcheck : subject.check instruction = .ok ()) (hsubset : subject.functions ⊆ functions)
    (code : Code) (test : Code → Bool) :
    FailsOnly (registry.Misses instruction functions)
      (subject.value registry instruction code >>= fun a => pure (test a)) := by
  have hsubject := Registry.failsOnly_of_subset (Operand.value_failsOnly registry hcheck code) hsubset
  apply hsubject.bind
  intro a _
  exact failsOnly_pure _

mutual

/-- A condition that was checked **only misses functions**. -/
theorem evaluate_failsOnly {condition : Condition}
    (hcheck : condition.check instruction = .ok ()) (code : Code) :
    FailsOnly (registry.Misses instruction condition.functions)
      (condition.evaluate registry instruction code) := by
  match condition with
  | compare subject comparison object =>
    obtain ⟨⟨⟩, hsubject, hobject⟩ := bind_eq_ok.1 hcheck
    have hvalue := Registry.failsOnly_of_subset (Operand.value_failsOnly registry hsubject code)
      (List.subset_append_left subject.functions object.functions)
    apply hvalue.bind
    intro a _
    exact failsOnly_test registry hobject (List.subset_append_right _ _) code _
  | inSet subject values => exact failsOnly_test registry hcheck (List.Subset.refl _) code _
  | inRange subject first last => exact failsOnly_test registry hcheck (List.Subset.refl _) code _
  | all children => exact evaluateUntil_failsOnly false hcheck code
  | any children => exact evaluateUntil_failsOnly true hcheck code

theorem evaluateUntil_failsOnly (decisive : Bool) {children : List Condition}
    (hcheck : checkAll instruction children = .ok ()) (code : Code) :
    FailsOnly (registry.Misses instruction (functionsOfAll children))
      (evaluateUntil registry instruction decisive code children) := by
  match children with
  | [] => exact failsOnly_pure _
  | child :: rest =>
    obtain ⟨⟨⟩, hchild, hrest⟩ := bind_eq_ok.1 hcheck
    have hfirst := Registry.failsOnly_of_subset (evaluate_failsOnly hchild code)
      (List.subset_append_left child.functions (functionsOfAll rest))
    have hlater := Registry.failsOnly_of_subset
      (evaluateUntil_failsOnly decisive hrest code)
      (List.subset_append_right child.functions (functionsOfAll rest))
    apply hfirst.bind
    intro value _
    -- A child with the decisive value ends the evaluation.
    by_cases hvalue : value = decisive
    · rw [if_pos hvalue]
      exact failsOnly_pure _
    · rw [if_neg hvalue]
      exact hlater

end

end Condition

end IsaCodec
