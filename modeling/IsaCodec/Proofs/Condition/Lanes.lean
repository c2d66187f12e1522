import IsaCodec.Condition.Lanes
import IsaCodec.Proofs.Traced.Lanes

/-! # Conditions on lanes

    Evaluating a condition for many codes at once agrees with evaluating it
    for each of them.

    The operands come first, by induction on the operand; they are computed
    for all lanes.  For a condition the induction runs over the tree and the
    lists of children together: the children of a conjunction or disjunction
    are evaluated on the lanes that are still undecided, and that is a
    refinement of the values of the first child. -/

namespace IsaCodec

open Traced

variable (registry : Registry) (instruction : Instruction)

/-! ## Operands -/

/-- Without lanes a call still looks up its function, so there has to be a lane. -/
theorem Operand.values_onLanes (operand : Operand) {codes : List Code} (hcodes : codes ≠ []) :
    OnLanes (fun code => operand.value registry instruction code) codes
      (operand.values registry instruction codes) := by
  induction operand with
  | field name element => exact onLanes_collect _ codes
  | immediate value => exact onLanes_pure _ codes
  | call name argument ih =>
    refine onLanes_ofExcept hcodes fun f _ => ?_
    refine ih.bind (g := fun p => instruction.apply name f p.1 p.2) fun arguments _ => ?_
    exact onLanes_collect _ _

/-! ## Conditions -/

namespace Condition

mutual

theorem evaluateLanes_onLanes (codes : List Code) (condition : Condition) :
    OnLanes (fun code => condition.evaluate registry instruction code) codes
      (condition.evaluateLanes registry instruction codes) := by
  match condition with
  | compare subject comparison object =>
    exact onLanes_of_ne_nil fun hcodes =>
      (subject.values_onLanes registry instruction hcodes).zipWith
        (object.values_onLanes registry instruction hcodes) comparison.holds
  | inSet subject values =>
    exact onLanes_of_ne_nil fun hcodes =>
      (subject.values_onLanes registry instruction hcodes).map values.contains
  | inRange subject first last =>
    exact onLanes_of_ne_nil fun hcodes =>
      (subject.values_onLanes registry instruction hcodes).map (isBetween first last)
  | all children => exact evaluateLanesUntil_onLanes false codes children
  | any children => exact evaluateLanesUntil_onLanes true codes children

theorem evaluateLanesUntil_onLanes (decisive : Bool) (codes : List Code)
    (children : List Condition) :
    OnLanes (fun code => evaluateUntil registry instruction decisive code children) codes
      (evaluateLanesUntil registry instruction decisive codes children) := by
  match children with
  | [] => exact onLanes_pure _ codes
  | child :: rest =>
    -- The lanes that go on are those on which the first child is not decisive.
    have hlanes := (evaluateLanes_onLanes codes child).refine (· != decisive) fun values _ =>
      evaluateLanesUntil_onLanes decisive (selectWhere (· != decisive) codes values) rest
    refine hlanes.congr fun code _ => bind_congr fun value => ?_
    by_cases hvalue : value = decisive
    · simp [hvalue]
    · simp [hvalue]

end

/-- **Agreement**: the joint evaluation has a result exactly if the condition
    can be evaluated for each code.  The result then holds, in order, what
    the evaluations for the single codes give, and the calls are theirs.  A
    fault is the fault of one of them. -/
theorem evaluateLanes_agrees (condition : Condition) (codes : List Code) :
    let lanes := condition.evaluateLanes registry instruction codes
    let alone := fun code => condition.evaluate registry instruction code
    ((∃ values, lanes.outcome = .ok values) ↔
        ∀ code ∈ codes, ∃ value, (alone code).outcome = .ok value) ∧
      (∀ values, lanes.outcome = .ok values →
        values.map .ok = codes.map (fun code => (alone code).outcome) ∧
        lanes.calls.Perm (codes.flatMap fun code => (alone code).calls)) ∧
      (∀ error, lanes.outcome = .error error →
        ∃ code ∈ codes, (alone code).outcome = .error error) := by
  have hlanes := evaluateLanes_onLanes registry instruction codes condition
  refine ⟨hlanes.ok_iff, fun values hvalues => ⟨?_, ?_⟩, fun error herror => ?_⟩
  · exact (hlanes.map_outcome hvalues).symm
  · exact hlanes.calls hvalues
  · exact hlanes.faults herror

end Condition

end IsaCodec
