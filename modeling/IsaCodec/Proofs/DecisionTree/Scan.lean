import IsaCodec.Instruction.Compile
import IsaCodec.Proofs.DecisionTree.Routing
import IsaCodec.Proofs.Order
import IsaCodec.Proofs.Outcome
import IsaCodec.Sample
import Mathlib.Data.List.Dedup

/-! # Lookups as scans

    A tree may be built for any indices, in any order and with repetitions,
    and for a form that is not the instructions' own.  Looking a code up in it
    still does what confirming the instructions one by one does
    (`decode_ofInstructions`).

    An instruction without the fixed bits is not confirmed, and no function is
    called for it.  So such instructions can be left out of either list, and
    then the candidates of the tree and the distinct indices are the same. -/

namespace IsaCodec

/-- Confirms the instructions of some indices for a code, one after the other.  The first fault
    ends the scan. -/
def scanIndices (registry : Registry) (instructions : List Instruction) (code : Code) :
    List Nat → Traced ConditionError (List Nat)
  | [] => pure []
  | index :: rest =>
    match instructions[index]? with
    | none => scanIndices registry instructions code rest
    | some instruction => do
      let confirmed ← instruction.confirm registry code
      let found ← scanIndices registry instructions code rest
      pure (if confirmed then index :: found else found)

/-- Is a code that of the instruction of an index? -/
def confirmAt (registry : Registry) (instructions : List Instruction) (code : Code)
    (index : Nat) : Traced ConditionError Bool :=
  match instructions[index]? with
  | none => pure false
  | some instruction => instruction.confirm registry code

section scan

variable (registry : Registry) (instructions : List Instruction) (code : Code)

theorem scanIndices_eq_filter (indices : List Nat) :
    scanIndices registry instructions code indices =
      Traced.filter (confirmAt registry instructions code) indices := by
  induction indices with
  | nil => rfl
  | cons index rest ih =>
    unfold scanIndices Traced.filter confirmAt
    cases instructions[index]? with
    | none =>
      rw [Traced.pure_bind, ih]
      exact (Traced.bind_pure _).symm
    | some instruction => rw [ih]; rfl

/-- Without the fixed bits an instruction is not confirmed. -/
theorem confirmAt_eq (index : Nat) :
    confirmAt registry instructions code index =
      if (Instruction.fixedAt instructions index).isMatch code then
        confirmAt registry instructions code index
      else pure false := by
  unfold confirmAt Instruction.fixedAt
  cases instructions[index]? with
  | none => exact (ite_self _).symm
  | some instruction =>
    show instruction.confirm registry code =
      if instruction.matchesFixedBits code then instruction.confirm registry code else pure false
    unfold Instruction.confirm
    by_cases hfixed : instruction.matchesFixedBits code
    · rw [if_pos hfixed, if_pos hfixed]
    · rw [if_neg hfixed, if_neg hfixed]

/-- Indices without the fixed bits can be left out. -/
theorem filter_confirmAt (indices : List Nat) :
    Traced.filter (confirmAt registry instructions code) indices =
      Traced.filter (confirmAt registry instructions code)
        (indices.filter fun index => (Instruction.fixedAt instructions index).isMatch code) := by
  rw [Traced.filter_filter]
  exact congrArg (Traced.filter · indices) (funext (confirmAt_eq registry instructions code))

end scan

namespace DecisionTree

/-- The distinct items of a list in ascending order. -/
theorem pairwise_mergeSort_dedup (indices : List Nat) :
    (indices.dedup.mergeSort).Pairwise (· < ·) := by
  have hle : (indices.dedup.mergeSort).Pairwise (· ≤ ·) :=
    (List.pairwise_mergeSort (fun a b c => by simpa using Nat.le_trans)
      (fun a b => by simpa using Nat.le_total a b) _).imp (by simp)
  have hnodup : (indices.dedup.mergeSort).Nodup :=
    (List.mergeSort_perm _ _).nodup_iff.2 indices.nodup_dedup
  exact hle.imp₂ (fun _ _ hle hne => Nat.lt_of_le_of_ne hle hne) hnodup

variable (form : Form) (instructions : List Instruction) (split : Bool) (indices : List Nat)

/-- Instructions whose fixed bits match are candidates exactly if their indices are given. -/
theorem filter_candidates (code : Code) :
    ((ofInstructions form instructions split indices).candidates code).filter
        (fun index => (Instruction.fixedAt instructions index).isMatch (code &&& form.codeMask)) =
      indices.dedup.mergeSort.filter
        fun index => (Instruction.fixedAt instructions index).isMatch (code &&& form.codeMask) := by
  refine eq_of_mem_iff_of_ascending id ?_ ((pairwise_mergeSort_dedup indices).filter _)
    fun index => ?_
  · exact (pairwise_candidates _ code).filter _
  · rw [List.mem_filter, List.mem_filter, List.mem_mergeSort, List.mem_dedup]
    exact and_congr_left fun hmatch => mem_candidates_build hmatch

/-- A tree decodes what a **scan** of the distinct indices confirms. -/
theorem decode_ofInstructions (registry : Registry) (code : Code) :
    (ofInstructions form instructions split indices).decode registry instructions code =
      scanIndices registry instructions (code &&& form.codeMask) indices.dedup.mergeSort := by
  have hmasked : code &&& form.codeMask &&& form.codeMask = code &&& form.codeMask := by
    rw [BitVec.and_assoc, BitVec.and_self]
  have hcandidates := filter_candidates form instructions split indices (code &&& form.codeMask)
  rw [hmasked] at hcandidates
  rw [scanIndices_eq_filter, filter_confirmAt, ← hcandidates, ← filter_confirmAt]
  rfl

/-- **Lookups are scans**: a tree decodes a code as confirming the code's bits of the form for each
    of the distinct indices, in ascending order, does: the indices that are found, a fault and the
    calls are the same.  The candidates are in ascending order, and every index that was given and
    whose fixed bits match is one of them. -/
theorem decode_eq_scanIndices (registry : Registry) (code : Code) :
    let tree := ofInstructions form instructions split indices
    tree.decode registry instructions code =
        scanIndices registry instructions (code &&& form.codeMask) indices.dedup.mergeSort ∧
      (tree.candidates code).Pairwise (· < ·) ∧
      (∀ i ∈ tree.candidates code, i ∈ indices) ∧
      ∀ i ∈ indices, ∀ instruction, instructions[i]? = some instruction →
        instruction.matchesFixedBits (code &&& form.codeMask) → i ∈ tree.candidates code := by
  intro tree
  refine ⟨decode_ofInstructions form instructions split indices registry code,
    pairwise_candidates tree code, fun i hi => ?_, fun i hi instruction hinstruction hmatch => ?_⟩
  · exact Node.mem_of_mem_collect_build (mem_ofList.1 hi)
  · have hfixed : (Instruction.fixedAt instructions i).isMatch (code &&& form.codeMask) := by
      unfold Instruction.fixedAt
      rw [hinstruction]
      exact hmatch
    exact (mem_candidates_build hfixed).2 hi

/-- A tree for a push and for a shorter instruction, which is given twice, and a code with bits above
    the form. -/
theorem decode_eq_scanIndices_thumb :
    ∃ instructions, Sample.thumb.instructions.mapM Instruction.compile = .ok instructions ∧
      ∃ push, instructions[1]? = some push ∧
        push.matchesFixedBits (0xffe92d4010 &&& Form.codeMask ⟨16, 2⟩) ∧
        let tree := ofInstructions ⟨16, 2⟩ instructions true [3, 1, 3]
        1 ∈ tree.candidates 0xffe92d4010 ∧
        (tree.decode Sample.registry instructions 0xffe92d4010).outcome = .ok [1] ∧
        tree.decode Sample.registry instructions 0xffe92d4010 =
          scanIndices Sample.registry instructions (0xffe92d4010 &&& Form.codeMask ⟨16, 2⟩)
            [3, 1, 3].dedup.mergeSort := by
  have hvalues : (Sample.thumb.instructions.mapM Instruction.compile).toOption.map
      (fun instructions => (
        instructions[1]?.map (·.matchesFixedBits (0xffe92d4010 &&& Form.codeMask ⟨16, 2⟩)),
        ((ofInstructions ⟨16, 2⟩ instructions true [3, 1, 3]).decode Sample.registry instructions
          0xffe92d4010).outcome)) = some (some true, .ok [1]) := by
    decide +kernel
  obtain ⟨instructions, hcompiled, hvalues⟩ := Option.map_eq_some_iff.1 hvalues
  obtain ⟨hmatch, hdecode⟩ := Prod.mk.inj hvalues
  obtain ⟨push, hpush, hmatch⟩ := Option.map_eq_some_iff.1 hmatch
  obtain ⟨hscan, -, -, hcandidate⟩ := decode_eq_scanIndices ⟨16, 2⟩ instructions true [3, 1, 3]
    Sample.registry 0xffe92d4010
  exact ⟨instructions, toOption_eq_some.1 hcompiled, push, hpush, hmatch,
    hcandidate 1 (by decide) push hpush hmatch, hdecode, hscan⟩

end DecisionTree

end IsaCodec
