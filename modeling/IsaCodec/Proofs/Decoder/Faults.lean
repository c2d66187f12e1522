import IsaCodec.Proofs.Decoder.Batch
import IsaCodec.Proofs.Decoder.Stream
import IsaCodec.Proofs.Instruction.Checked

/-! # Faults of decoders

    A decoder that was built without a hook has checked instructions only.
    Every way to decode comes down to confirming codes for its instructions,
    and a checked instruction is confirmed unless a function is missing.

    * **`failsOnly_of_isChecked`** — so whatever is decoded, an error is that
      some instruction's condition calls a function that is not registered.
    * **`FailsOnly.answers`** — and if there is no such function, then every
      way to decode gives a result; only a unique match may be ambiguous. -/

namespace IsaCodec

open Traced

/-- The error is an ambiguity, or it comes from a condition and is allowed there. -/
def UniqueError.IsAllowed (allowed : ConditionError → Prop) : UniqueError → Prop
  | condition error => allowed error
  | ambiguity _ => True

namespace Decoder

/-- The error is that a condition of some instruction calls a function that is not registered. -/
def MissesFunction (decoder : Decoder) (error : ConditionError) : Prop :=
  ∃ instruction ∈ decoder.instructions,
    decoder.registry.Misses instruction instruction.functions error

/-- Whatever is decoded and in whichever way, every error is allowed. -/
structure FailsOnly (decoder : Decoder) (allowed : ConditionError → Prop) : Prop where
  decode : ∀ code, (decoder.decode code).FailsOnly allowed
  decodeFirst : ∀ code, (decoder.decodeFirst code).FailsOnly allowed
  decodeBatch : ∀ codes, (decoder.decodeBatch codes).FailsOnly allowed
  decodeBytes : ∀ bytes, (decoder.decodeBytes bytes).FailsOnly allowed
  decodeStream : ∀ address bytes, ((Stream.mk decoder address).decode bytes).1.FailsOnly allowed
  decodeLen : ∀ bytes, (decoder.decodeLen bytes).FailsOnly allowed
  decodeUnique : ∀ code, (decoder.decodeUnique code).FailsOnly (UniqueError.IsAllowed allowed)

/-- Whatever is decoded and in whichever way, there is a result; a unique match may be
    ambiguous. -/
structure Answers (decoder : Decoder) : Prop where
  decode : ∀ code, ∃ found, (decoder.decode code).outcome = .ok found
  decodeFirst : ∀ code, ∃ first, (decoder.decodeFirst code).outcome = .ok first
  decodeBatch : ∀ codes, ∃ found, (decoder.decodeBatch codes).outcome = .ok found
  decodeBytes : ∀ bytes, ∃ found, (decoder.decodeBytes bytes).outcome = .ok found
  decodeStream : ∀ address bytes, ∃ first,
    ((Stream.mk decoder address).decode bytes).1.outcome = .ok first
  decodeLen : ∀ bytes, ∃ count, (decoder.decodeLen bytes).outcome = .ok count
  decodeUnique : ∀ code error, (decoder.decodeUnique code).outcome = .error error →
    ∃ ambiguity, error = .ambiguity ambiguity

/-- If no error is allowed, there is none. -/
theorem FailsOnly.answers {decoder : Decoder} {allowed : ConditionError → Prop}
    (h : decoder.FailsOnly allowed) (hnone : ∀ error, ¬allowed error) : decoder.Answers where
  decode code := (h.decode code).exists_ok hnone
  decodeFirst code := (h.decodeFirst code).exists_ok hnone
  decodeBatch codes := (h.decodeBatch codes).exists_ok hnone
  decodeBytes bytes := (h.decodeBytes bytes).exists_ok hnone
  decodeStream address bytes := (h.decodeStream address bytes).exists_ok hnone
  decodeLen bytes := (h.decodeLen bytes).exists_ok hnone
  decodeUnique code error herror := by
    have hallowed := h.decodeUnique code error herror
    cases error with
    | condition error => exact absurd hallowed (hnone error)
    | ambiguity error => exact ⟨error, rfl⟩

/-! ## From single lookups -/

section lookups

variable {decoder : Decoder} {allowed : ConditionError → Prop}

theorem decodeUnique_failsOnly (h : ∀ code, (decoder.decode code).FailsOnly allowed)
    (code : Code) :
    (decoder.decodeUnique code).FailsOnly (UniqueError.IsAllowed allowed) := by
  have hdecode : ((decoder.decode code).mapError UniqueError.condition).FailsOnly
      (UniqueError.IsAllowed allowed) := (h code).mapError fun error herror => herror
  apply hdecode.bind
  intro matched _
  match matched with
  | [] => exact failsOnly_pure _
  | [instruction] => exact failsOnly_pure _
  | first :: second :: others =>
    intro error herror
    cases herror
    trivial

theorem decodeStream_failsOnly (h : ∀ bytes, (decoder.decodeBytes bytes).FailsOnly allowed)
    (address : Nat) (bytes : List Byte) :
    ((Stream.mk decoder address).decode bytes).1.FailsOnly allowed := by
  rw [Stream.decode_fst]
  apply (h bytes).bind
  intro found _
  exact failsOnly_pure _

/-- Counting decodes the bytes that are left, again and again. -/
theorem decodeLen_failsOnly (h : ∀ bytes, (decoder.decodeBytes bytes).FailsOnly allowed)
    (bytes : List Byte) : (decoder.decodeLen bytes).FailsOnly allowed := by
  induction hn : bytes.length using Nat.strongRecOn generalizing bytes with
  | ind n ih =>
    subst hn
    rw [decodeLen]
    split
    · exact failsOnly_pure 0
    · apply (h bytes).bind
      intro found _
      cases found with
      | nil => exact failsOnly_pure 0
      | cons first others =>
        dsimp only
        split
        · next hfits =>
          have hshorter : (bytes.drop first.byteLen).length < bytes.length := by
            rw [List.length_drop]
            omega
          apply (ih _ hshorter _ rfl).bind
          intro rest _
          exact failsOnly_pure _
        · exact failsOnly_pure 0

end lookups

/-! ## Checked instructions -/

theorem failsOnly_of_isChecked (options : Options) (registry : Registry)
    (description : Description) {instructions : List Instruction}
    (hchecked : ∀ instruction ∈ instructions, instruction.IsChecked)
    (hcounted : ∀ instruction ∈ instructions, instruction.form.IsCounted) :
    let decoder := ofInstructions options registry description instructions
    decoder.FailsOnly decoder.MissesFunction := by
  intro decoder
  have haccepts : ∀ instruction ∈ instructions, ∀ code,
      (accepts registry (widest instructions) code instruction).FailsOnly
        decoder.MissesFunction := by
    intro instruction hmem code
    exact ((hchecked instruction hmem).confirm_failsOnly registry _).imp
      fun error herror => ⟨instruction, hmem, herror⟩
  -- One code is confirmed for each of the instructions, until a first one matches or for all.
  have hdecode : ∀ code, (decoder.decode code).FailsOnly decoder.MissesFunction := by
    intro code
    rw [decode_ofInstructions, linearScan_eq_filter]
    exact failsOnly_filter fun instruction hmem => haccepts instruction hmem code
  have hfirst : ∀ code, (decoder.decodeFirst code).FailsOnly decoder.MissesFunction := by
    intro code
    rw [decodeFirst_ofInstructions]
    exact failsOnly_find? fun instruction hmem => haccepts instruction hmem code
  -- The candidates of bytes are instructions with the codes of their forms.
  have hbytes : ∀ bytes, (decoder.decodeBytes bytes).FailsOnly decoder.MissesFunction := by
    intro bytes
    rw [decodeBytes_eq hcounted]
    refine (failsOnly_filter fun candidate hcandidate => ?_).bind fun passed _ =>
      failsOnly_pure _
    obtain ⟨hmem, -⟩ := mem_byteCandidates hcounted hcandidate
    exact ((hchecked _ hmem).confirmConditions_failsOnly registry candidate.code).imp
      fun error herror => ⟨candidate.instruction, hmem, herror⟩
  exact {
    decode := hdecode
    decodeFirst := hfirst
    decodeBatch := fun codes =>
      (decodeBatch_onLanes options registry description instructions codes).failsOnly
        fun code _ => hfirst code
    decodeBytes := hbytes
    decodeStream := decodeStream_failsOnly hbytes
    decodeLen := decodeLen_failsOnly hbytes
    decodeUnique := decodeUnique_failsOnly hdecode }

/-- **Decoders only miss functions**: if a decoder was built without a hook, then every error that
    it gives for a code, a batch of codes or bytes is that some condition of an instruction calls a
    function that is not registered.  If all functions are registered that the conditions call,
    then it gives no error, except that a code may have no unique match. -/
theorem faults_of_build {options : Options} {registry : Registry} {description : Description}
    {decoder : Decoder} (hbuild : build options registry description = .ok decoder) :
    decoder.registry = registry ∧ decoder.FailsOnly decoder.MissesFunction ∧
      ((∀ instruction ∈ decoder.instructions, ∀ function ∈ instruction.functions,
        registry.contains function) → decoder.Answers) := by
  have hkeeps : decoder.KeepsForms description := keepsForms_of_hook hbuild fun _ _ => rfl
  obtain ⟨instructions, hcompiled, rfl⟩ := buildHooked_eq_ok.1 hbuild
  have hchecked : ∀ instruction ∈ instructions, instruction.IsChecked := by
    intro instruction hmem
    obtain ⟨entry, hentry⟩ := exists_compile_of_compileAll hcompiled instruction hmem
    exact Instruction.isChecked_of_compile hentry
  have hfails := failsOnly_of_isChecked options registry description hchecked
    fun _ => hkeeps.isCounted
  refine ⟨rfl, hfails, fun hregistered => hfails.answers fun error hmisses => ?_⟩
  obtain ⟨instruction, hmem, function, hfunction, hmissing, -⟩ := hmisses
  exact absurd (hregistered instruction hmem function hfunction) (ne_true_of_eq_false hmissing)

/-- With its function this instruction set is decoded without errors.  Without the function a push
    is found out to need it. -/
theorem faults_of_build_thumb :
    (∃ decoder, build {} Sample.registry Sample.thumb = .ok decoder ∧
      (∃ instruction ∈ decoder.instructions, "setbit_count" ∈ instruction.functions) ∧
      (∀ instruction ∈ decoder.instructions, ∀ function ∈ instruction.functions,
        Sample.registry.contains function) ∧
      decoder.Answers) ∧
    ∃ decoder, build {} .empty Sample.thumb = .ok decoder ∧
      (decoder.decode 0xe92d4010).outcome =
        .error ⟨"push_1", .undefinedFunction "setbit_count"⟩ ∧
      decoder.MissesFunction ⟨"push_1", .undefinedFunction "setbit_count"⟩ := by
  constructor
  · have hvalues : (build {} Sample.registry Sample.thumb).toOption.map
        (fun decoder => (
          decoder.instructions.any fun instruction =>
            instruction.functions.contains "setbit_count",
          decoder.instructions.all fun instruction =>
            instruction.functions.all Sample.registry.contains)) = some (true, true) := by
      decide +kernel
    obtain ⟨decoder, hdecoder, hvalues⟩ := Option.map_eq_some_iff.1 hvalues
    obtain ⟨hcalls, hregistered⟩ := Prod.mk.inj hvalues
    have hbuild := toOption_eq_some.1 hdecoder
    simp only [List.any_eq_true, List.contains_iff_mem] at hcalls
    simp only [List.all_eq_true] at hregistered
    exact ⟨decoder, hbuild, hcalls, hregistered, (faults_of_build hbuild).2.2 hregistered⟩
  · have hvalues : (build {} .empty Sample.thumb).toOption.map
        (fun decoder => (decoder.decode 0xe92d4010).outcome.map (·.map (·.name))) =
        some (.error ⟨"push_1", .undefinedFunction "setbit_count"⟩) := by
      decide +kernel
    obtain ⟨decoder, hdecoder, hvalues⟩ := Option.map_eq_some_iff.1 hvalues
    have hbuild := toOption_eq_some.1 hdecoder
    have herror := map_eq_error.1 hvalues
    exact ⟨decoder, hbuild, herror, (faults_of_build hbuild).2.1.decode _ _ herror⟩

end Decoder

end IsaCodec
