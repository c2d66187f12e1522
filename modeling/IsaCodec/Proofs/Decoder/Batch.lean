import IsaCodec.Decoder.Batch
import IsaCodec.Proofs.Condition.Lanes
import IsaCodec.Proofs.Decoder.LinearScan

/-! # Batches

    Decoding a batch agrees with decoding its codes one by one.  A batch does
    not look at any tree, and neither does the linear scan that decoding a
    single code comes down to, so the two are compared instruction by
    instruction.

    * **Confirmation** — the unmatch condition is evaluated on the lanes that
      the match condition leaves, the conditions on those that have the fixed
      bits; each is a refinement of the step before.
    * **First matches** — by induction on the instructions: the lanes that an
      instruction does not take go on with the instructions after it.
    * **Chunks** — the lanes of all chunks are the lanes of the batch. -/

namespace IsaCodec

open Traced

open scoped List

/-! ## Confirmation -/

namespace Instruction

variable (registry : Registry) (instruction : Instruction)

theorem testLanes_onLanes (otherwise : Bool) (codes : List Code) (condition : Option Condition) :
    OnLanes (fun code => instruction.test registry otherwise code condition) codes
      (instruction.testLanes registry otherwise codes condition) := by
  cases condition with
  | none => exact onLanes_pure _ codes
  | some condition => exact condition.evaluateLanes_onLanes registry instruction codes

theorem confirmConditionsLanes_onLanes (codes : List Code) :
    OnLanes (instruction.confirmConditions registry) codes
      (instruction.confirmConditionsLanes registry codes) := by
  have hmatch := instruction.testLanes_onLanes registry true codes instruction.matchCondition
  have hlanes := hmatch.refine id fun accepted _ =>
    (instruction.testLanes_onLanes registry false (selectWhere id codes accepted)
      instruction.unmatchCondition).map (!·)
  simp only [Traced.bind_assoc, Traced.pure_bind] at hlanes
  -- A lane that the match condition does not accept keeps this answer.
  refine hlanes.congr fun code _ => bind_congr fun accepted => ?_
  cases accepted <;> rfl

theorem confirmLanes_onLanes (codes : List Code) :
    OnLanes (instruction.confirm registry) codes (instruction.confirmLanes registry codes) := by
  have hfixed := onLanes_pure (ε := ConditionError) instruction.matchesFixedBits codes
  have hlanes := hfixed.refine id fun fixed _ =>
    instruction.confirmConditionsLanes_onLanes registry (selectWhere id codes fixed)
  simp only [Traced.pure_bind] at hlanes
  refine hlanes.congr fun code _ => ?_
  by_cases hmatch : instruction.matchesFixedBits code
  · simp only [confirm, hmatch, id, if_true]
  · simp only [confirm, hmatch, id, Bool.false_eq_true, if_false]

end Instruction

/-! ## First matches -/

theorem firstMatches_onLanes (registry : Registry) (codeBitLen : Nat)
    (instructions : List Instruction) (codes : List Code) :
    OnLanes (fun code => find? (Decoder.accepts registry codeBitLen code) instructions) codes
      (firstMatches registry codeBitLen codes instructions) := by
  induction instructions generalizing codes with
  | nil => exact onLanes_pure _ codes
  | cons instruction rest ih =>
    have hconfirm := onLanes_map.1 <| instruction.confirmLanes_onLanes registry
      (codes.map (instruction.form.align · codeBitLen))
    -- The lanes that are left are those on which nothing was found.
    have hlanes := (hconfirm.map fun accepted => if accepted then some instruction else none).refine
      Option.isNone fun found _ => ih (selectWhere Option.isNone codes found)
    have hnone : (fun accepted => (if accepted then some instruction else none).isNone) =
        fun accepted => !accepted := by
      funext accepted
      cases accepted <;> rfl
    simp only [Traced.bind_assoc, Traced.pure_bind, selectWhere_map, hnone] at hlanes
    refine hlanes.congr fun code _ => bind_congr fun accepted => ?_
    cases accepted <;> rfl

/-! ## Batches -/

namespace Decoder

/-- The decoder for compiled instructions decodes a batch as it does the single codes. -/
theorem decodeBatch_onLanes (options : Options) (registry : Registry) (description : Description)
    (instructions : List Instruction) (codes : List Code) :
    let decoder := ofInstructions options registry description instructions
    OnLanes decoder.decodeFirst codes (decoder.decodeBatch codes) := by
  intro decoder
  -- The trees of the single codes are out of the way: both sides go over all instructions.
  have hrun : ∀ codes, OnLanes decoder.decodeFirst codes
      (firstMatches registry (widest instructions) codes instructions) := fun codes =>
    (firstMatches_onLanes registry (widest instructions) instructions codes).congr fun code _ =>
      (decodeFirst_ofInstructions options registry description instructions code).symm
  unfold decodeBatch
  by_cases hlarge : 1 < decoder.options.threads ∧ decoder.options.chunkSize < codes.length
  · -- The chunks together are the batch, so what they find is joined in the order of the codes.
    rw [if_pos hlarge]
    have hlength : decoder.options.chunkLength codes.length ≠ 0 :=
      Nat.ne_of_gt (Options.chunkLength_pos hlarge.1 (Nat.zero_lt_of_lt hlarge.2))
    have hchunks := onLanes_all hrun (chunks (decoder.options.chunkLength codes.length) codes)
    rw [flatten_chunks hlength] at hchunks
    exact hchunks
  · rw [if_neg hlarge]
    exact hrun codes

/-- **Batches agree with single codes**: decoding a batch fails exactly if decoding one of its
    codes does, and then with the error of one of them.  Otherwise it gives for each code, in
    order, what decoding the code gives, and makes the calls of all of them. -/
theorem decodeBatch_agrees {options : Options} {registry : Registry} {hook : Hook}
    {description : Description} {decoder : Decoder}
    (hbuild : buildHooked options registry hook description = .ok decoder) (codes : List Code) :
    let batch := decoder.decodeBatch codes
    ((∃ error, batch.outcome = .error error) ↔
        ∃ code ∈ codes, ∃ error, (decoder.decodeFirst code).outcome = .error error) ∧
      (∀ error, batch.outcome = .error error →
        ∃ code ∈ codes, (decoder.decodeFirst code).outcome = .error error) ∧
      (∀ found, batch.outcome = .ok found →
        List.Forall₂ (fun code instruction => (decoder.decodeFirst code).outcome = .ok instruction)
          codes found ∧
        batch.calls ~ codes.flatMap fun code => (decoder.decodeFirst code).calls) := by
  obtain ⟨instructions, -, rfl⟩ := buildHooked_eq_ok.1 hbuild
  have hlanes := decodeBatch_onLanes options registry description instructions codes
  refine ⟨hlanes.error_iff, fun error herror => ?_, fun found hfound => ⟨?_, ?_⟩⟩
  · exact hlanes.faults herror
  · exact hlanes.values hfound
  · exact hlanes.calls hfound

/-- Options for two workers with small chunks. -/
def twoWorkers : Options where
  threads := 2
  chunkSize := 1

/-- Codes for them, of which the second and the last are of no instruction. -/
def fiveCodes : List Code :=
  [0xe92d4010, 0xf10d0301, 0xb4ff0000, 0x21050000, 0]

theorem decodeBatch_agrees_thumb :
    ∃ decoder, buildHooked twoWorkers Sample.registry numbered Sample.thumb = .ok decoder ∧
      ∃ found, (decoder.decodeBatch fiveCodes).outcome = .ok found ∧
        found.map (Option.map Instruction.name) =
          [some "push_1#1", none, some "push_2#2", some "mov_1#3", none] ∧
        List.Forall₂ (fun code instruction => (decoder.decodeFirst code).outcome = .ok instruction)
          fiveCodes found := by
  obtain ⟨decoder, hbuild⟩ := exists_buildHooked_thumb twoWorkers
  have hnames : (buildHooked twoWorkers Sample.registry numbered Sample.thumb).toOption.map
      (fun decoder => (decoder.decodeBatch fiveCodes).outcome.toOption.map fun found =>
        found.map (Option.map Instruction.name)) =
      some (some [some "push_1#1", none, some "push_2#2", some "mov_1#3", none]) := by
    decide +kernel
  rw [hbuild] at hnames
  obtain ⟨found, hfound, hnames⟩ := Option.map_eq_some_iff.1 (Option.some.inj hnames)
  have houtcome : (decoder.decodeBatch fiveCodes).outcome = .ok found := toOption_eq_some.1 hfound
  obtain ⟨-, -, hagrees⟩ := decodeBatch_agrees hbuild fiveCodes
  exact ⟨decoder, hbuild, found, houtcome, hnames, (hagrees found houtcome).1⟩

end Decoder

end IsaCodec
