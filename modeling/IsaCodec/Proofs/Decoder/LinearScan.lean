import IsaCodec.Proofs.Decoder.Candidates
import IsaCodec.Proofs.Outcome
import IsaCodec.Sample

/-! # Decoding as a linear scan

    A decoder looks codes up in trees, one for each form, and sorts what it
    finds.  All of this only saves work: the candidates whose fixed bits
    match are those instructions that a plain test of all of them leaves, in
    the order of declaration (`candidates_ofInstructions`).  So decoding goes
    over all instructions and does for each what confirming it alone does,
    and the options of the trees are of no consequence. -/

namespace IsaCodec

open scoped List

namespace Decoder

/-! ## The scan -/

/-- Do the conditions of an instruction hold of a code as they should?  The unmatch condition is
    evaluated only after the match condition held. -/
def conditionsHold (registry : Registry) (instruction : Instruction) (code : Code) :
    Traced ConditionError Bool :=
  match instruction.matchCondition, instruction.unmatchCondition with
  | none, none => pure true
  | some required, none => required.evaluate registry instruction code
  | none, some excluded => do
    let rejected ← excluded.evaluate registry instruction code
    pure !rejected
  | some required, some excluded => do
    if ← required.evaluate registry instruction code then
      let rejected ← excluded.evaluate registry instruction code
      pure !rejected
    else pure false

/-- Goes over all instructions in order of declaration.  Each sees the leading bits of the code
    that make up its form, and is kept if they have its fixed bits and its conditions hold.  The
    first fault of a condition ends the scan. -/
def linearScan (registry : Registry) (codeBitLen : Nat) (code : Code) :
    List Instruction → Traced ConditionError (List Instruction)
  | [] => pure []
  | instruction :: rest =>
    let aligned := instruction.form.align code codeBitLen
    if aligned &&& instruction.fixed.mask = instruction.fixed.bits then do
      let held ← conditionsHold registry instruction aligned
      let found ← linearScan registry codeBitLen code rest
      pure (if held then instruction :: found else found)
    else linearScan registry codeBitLen code rest

theorem confirmConditions_eq (registry : Registry) (instruction : Instruction) (code : Code) :
    instruction.confirmConditions registry code = conditionsHold registry instruction code := by
  unfold Instruction.confirmConditions conditionsHold
  cases instruction.matchCondition with
  | none => cases instruction.unmatchCondition <;> simp [Instruction.test]
  | some required =>
    cases instruction.unmatchCondition with
    | none =>
      -- Without an unmatch condition, what is left is the answer of the match condition.
      have hanswer : ∀ held : Bool, (if held then pure true else pure false) =
          (pure held : Traced ConditionError Bool) := fun held => by cases held <;> rfl
      simp [Instruction.test, hanswer]
    | some excluded => rfl

/-- Is an instruction the one that the leading bits of a code are? -/
def accepts (registry : Registry) (codeBitLen : Nat) (code : Code) (instruction : Instruction) :
    Traced ConditionError Bool :=
  instruction.confirm registry (instruction.form.align code codeBitLen)

theorem accepts_eq (registry : Registry) (codeBitLen : Nat) (code : Code)
    (instruction : Instruction) :
    accepts registry codeBitLen code instruction =
      let aligned := instruction.form.align code codeBitLen
      if aligned &&& instruction.fixed.mask = instruction.fixed.bits then
        conditionsHold registry instruction aligned
      else pure false := by
  simp only [accepts, Instruction.confirm, Instruction.matchesFixedBits, FixedBits.isMatch,
    beq_iff_eq, confirmConditions_eq]

theorem linearScan_eq_filter (registry : Registry) (codeBitLen : Nat) (code : Code)
    (instructions : List Instruction) :
    linearScan registry codeBitLen code instructions =
      Traced.filter (accepts registry codeBitLen code) instructions := by
  induction instructions with
  | nil => rfl
  | cons instruction rest ih =>
    rw [linearScan, Traced.filter, accepts_eq, ih]
    by_cases hfixed : instruction.form.align code codeBitLen &&& instruction.fixed.mask =
        instruction.fixed.bits
    · simp only [hfixed, if_pos]
    · simp [hfixed]

/-! ## Candidates -/

/-- The candidate that an instruction is for a code. -/
def candidateOf (codeBitLen : Nat) (code : Code) (p : Instruction × Nat) : Candidate :=
  ⟨p.2, p.1, p.1.form.align code codeBitLen⟩

/-- The instructions whose fixed bits match, in order of declaration, without a look at any
    tree. -/
def matching (codeBitLen : Nat) (code : Code) (instructions : List Instruction) :
    List Candidate :=
  (instructions.zipIdx.filter fun p =>
    p.1.matchesFixedBits (p.1.form.align code codeBitLen)).map (candidateOf codeBitLen code)

theorem pairwise_matching (codeBitLen : Nat) (code : Code) (instructions : List Instruction) :
    (matching codeBitLen code instructions).Pairwise fun a b => a.index < b.index := by
  unfold matching candidateOf
  rw [List.pairwise_map]
  refine List.Pairwise.filter _ ?_
  have hindices : (instructions.zipIdx.map Prod.snd).Pairwise (· < ·) := by
    rw [List.zipIdx_map_snd]
    exact List.pairwise_lt_range'
  exact List.pairwise_map.1 hindices

theorem mem_matching {codeBitLen : Nat} {code : Code} {instructions : List Instruction}
    {candidate : Candidate} :
    candidate ∈ matching codeBitLen code instructions ↔
      instructions[candidate.index]? = some candidate.instruction ∧
        candidate.code = candidate.instruction.form.align code codeBitLen ∧
        candidate.instruction.matchesFixedBits candidate.code := by
  obtain ⟨index, instruction, code'⟩ := candidate
  simp only [matching, candidateOf, List.mem_map, List.mem_filter, Candidate.mk.injEq, Prod.exists,
    List.mem_zipIdx_iff_getElem?]
  constructor
  · intro h
    obtain ⟨instruction, index, ⟨hindex, hmatch⟩, rfl, rfl, rfl⟩ := h
    exact ⟨hindex, rfl, hmatch⟩
  · intro h
    obtain ⟨hindex, rfl, hmatch⟩ := h
    exact ⟨instruction, index, ⟨hindex, hmatch⟩, rfl, rfl, rfl⟩

/-! ## Decoders -/

section ofInstructions

variable (options : Options) (registry : Registry) (description : Description)
  (instructions : List Instruction) (code : Code)

/-- The candidates of a decoder are the instructions whose fixed bits match. -/
theorem candidates_ofInstructions :
    (ofInstructions options registry description instructions).candidates code =
      matching (widest instructions) code instructions := by
  refine sortBy_eq_of_perm ?_ (pairwise_matching _ _ _)
  show lookups (fun form => some (form.align code (widest instructions))) instructions
    (buildTrees options.splitWildcards instructions) ~ _
  refine lookups_perm ?_ (pairwise_matching _ _ _) fun candidate => ?_
  · intro instruction _ aligned h
    rw [← Option.some.inj h, Form.align_and_codeMask]
  · rw [mem_matching, Option.some.injEq, @eq_comm _ candidate.code]

/-- **Decoding** goes over all instructions. -/
theorem decode_ofInstructions :
    (ofInstructions options registry description instructions).decode code =
      linearScan registry (widest instructions) code instructions := by
  -- The scan is done for the instructions with their indices, as the candidates have them.
  have hpositions := Traced.filter_map (accepts registry (widest instructions) code) Prod.fst
    instructions.zipIdx
  rw [List.zipIdx_map_fst] at hpositions
  rw [linearScan_eq_filter, hpositions, decode, candidates_ofInstructions, matching,
    Traced.filter_map, Traced.filter_filter, Traced.bind_assoc]
  refine bind_congr fun passed => ?_
  rw [Traced.pure_bind, List.map_map]
  rfl

/-- The **first match** is the first instruction that the code is. -/
theorem decodeFirst_ofInstructions :
    (ofInstructions options registry description instructions).decodeFirst code =
      Traced.find? (accepts registry (widest instructions) code) instructions := by
  have hpositions := Traced.find?_map (accepts registry (widest instructions) code) Prod.fst
    instructions.zipIdx
  rw [List.zipIdx_map_fst] at hpositions
  rw [hpositions, decodeFirst, candidates_ofInstructions, matching, Traced.find?_map,
    Traced.find?_filter, Traced.bind_assoc]
  refine bind_congr fun found => ?_
  rw [Traced.pure_bind, Option.map_map]
  rfl

end ofInstructions

/-! ## Built decoders -/

/-- A decoder is built exactly if all instructions can be compiled, and is the decoder for them. -/
theorem buildHooked_eq_ok {options : Options} {registry : Registry} {hook : Hook}
    {description : Description} {decoder : Decoder} :
    buildHooked options registry hook description = .ok decoder ↔
      ∃ instructions, compileAll hook [] description.instructions = .ok instructions ∧
        decoder = ofInstructions options registry description instructions := by
  rw [buildHooked, bind_eq_ok]
  simp only [pure_eq_ok, eq_comm (a := decoder)]

/-- **Decoding is a linear scan**: a decoder that was built decodes every code by going over its
    compiled instructions in order of declaration.  The instructions, their order, a fault and the
    calls are those of the scan.  Other options build a decoder too, and it decodes alike. -/
theorem decode_eq_linearScan {options : Options} {registry : Registry} {hook : Hook}
    {description : Description} {decoder : Decoder}
    (hbuild : buildHooked options registry hook description = .ok decoder) :
    compileAll hook [] description.instructions = .ok decoder.instructions ∧
      decoder.codeBitLen = widest decoder.instructions ∧
      (∀ code, decoder.decode code =
        linearScan registry decoder.codeBitLen code decoder.instructions) ∧
      ∀ options', ∃ decoder', buildHooked options' registry hook description = .ok decoder' ∧
        ∀ code, decoder'.decode code = decoder.decode code := by
  obtain ⟨instructions, hcompiled, rfl⟩ := buildHooked_eq_ok.1 hbuild
  refine ⟨hcompiled, rfl, fun code => ?_, fun options' => ?_⟩
  · exact decode_ofInstructions options registry description instructions code
  · refine ⟨_, buildHooked_eq_ok.2 ⟨instructions, hcompiled, rfl⟩, fun code => ?_⟩
    rw [decode_ofInstructions, decode_ofInstructions]

/-- A hook that numbers the instructions. -/
def numbered : Hook := fun earlier instruction =>
  { instruction with name := instruction.name ++ "#" ++ toString earlier.length }

theorem exists_buildHooked_thumb (options : Options) :
    ∃ decoder, buildHooked options Sample.registry numbered Sample.thumb = .ok decoder := by
  have hcompiled : (compileAll numbered [] Sample.thumb.instructions).toOption.isSome := by
    decide +kernel
  obtain ⟨instructions, hinstructions⟩ := exists_eq_ok hcompiled
  exact ⟨_, buildHooked_eq_ok.2 ⟨instructions, hinstructions, rfl⟩⟩

theorem decode_eq_linearScan_thumb :
    ∃ decoder, buildHooked {} Sample.registry numbered Sample.thumb = .ok decoder ∧
      ∀ code, decoder.decode code =
        linearScan Sample.registry decoder.codeBitLen code decoder.instructions := by
  obtain ⟨decoder, hbuild⟩ := exists_buildHooked_thumb {}
  obtain ⟨-, -, hdecode, -⟩ := decode_eq_linearScan hbuild
  exact ⟨decoder, hbuild, hdecode⟩

end Decoder

end IsaCodec
