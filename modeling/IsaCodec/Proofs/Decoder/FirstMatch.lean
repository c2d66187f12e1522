import IsaCodec.Proofs.Decoder.Stream

/-! # First matches

    The first match of a code is searched for, and no condition of a later
    instruction is evaluated.  A stream takes the first of all instructions
    that are found in its bytes, and all conditions are evaluated before.  So
    the two give the same instruction (`result_agrees`), but a stream also
    fails because of instructions that are declared after the first match
    (`result_overlapping`). -/

namespace IsaCodec

namespace Decoder

/-- The fixed bits of an instruction match a code, and one of its conditions cannot be evaluated. -/
def HasFault (decoder : Decoder) (code : Code) (instruction : Instruction) : Prop :=
  ∃ error, (instruction.confirm decoder.registry
    (instruction.form.align code decoder.codeBitLen)).outcome = .error error

theorem exists_decode_eq_error {options : Options} {registry : Registry}
    {description : Description} {instructions : List Instruction} {code : Code} :
    let decoder := ofInstructions options registry description instructions
    (∃ error, (decoder.decode code).outcome = .error error) ↔
      ∃ instruction ∈ instructions, HasFault decoder code instruction := by
  intro decoder
  rw [decode_ofInstructions, linearScan_eq_filter, Traced.exists_filter_eq_error]
  rfl

/-- A search for the first match that fails is a part of the search for all matches. -/
theorem exists_decode_eq_error_of_first {decoder : Decoder} {code : Code} {error : ConditionError}
    (h : (decoder.decodeFirst code).outcome = .error error) :
    ∃ error, (decoder.decode code).outcome = .error error := by
  simp only [decode, Traced.outcome_bind_pure_eq_error]
  rw [decodeFirst, Traced.outcome_bind_pure_eq_error] at h
  exact Traced.exists_filter_eq_error_of_find? h

end Decoder

namespace Stream

/-- **First matches of streams**: in a bytewise instruction set, bytes that are enough for a widest
    form hold a code of it.  A stream fails on the bytes exactly if the conditions of some
    instruction fail on this code, be it declared before the first match or after it, and so it
    fails if the search for the first match does.  A stream that does not fail returns the first
    match of the code. -/
theorem result_agrees {options : Options} {registry : Registry} {hook : Decoder.Hook}
    {description : Description} {decoder : Decoder}
    (hbuild : Decoder.buildHooked options registry hook description = .ok decoder)
    (hkeeps : decoder.KeepsForms description) (hne : decoder.instructions ≠ [])
    (hbytewise : decoder.IsBytewise) (address : Nat) {bytes : List Byte}
    (hlength : decoder.codeBitLen / 8 ≤ bytes.length) :
    let stream : Stream := ⟨decoder, address⟩
    (∃ wide ∈ decoder.instructions, wide.form.bitLen = decoder.codeBitLen) ∧
      ∀ wide ∈ decoder.instructions, wide.form.bitLen = decoder.codeBitLen →
        ∃ code, assemble bytes decoder.machine.byteOrder wide.form = some code ∧
          ((∃ error, stream.result bytes = .error error) ↔
            ∃ instruction ∈ decoder.instructions, decoder.HasFault code instruction) ∧
          ((∃ error, (decoder.decodeFirst code).outcome = .error error) →
            ∃ error, stream.result bytes = .error error) ∧
          ∀ first, stream.result bytes = .ok first →
            (decoder.decodeFirst code).outcome = .ok (first.map (·.instruction)) := by
  intro stream
  obtain ⟨instructions, -, rfl⟩ := Decoder.buildHooked_eq_ok.1 hbuild
  obtain ⟨hexists, hwidest⟩ := Decoder.exists_widest hne
  have hcounted : ∀ instruction ∈ instructions, instruction.form.IsCounted :=
    fun _ => hkeeps.isCounted
  refine ⟨hexists, fun wide hwide hwidth => ?_⟩
  obtain ⟨code, hcode, hcodes⟩ :=
    Decoder.exists_code hkeeps hbytewise hwidest hlength hwide hwidth
  have hfails : (∃ error, stream.result bytes = .error error) ↔
      ∃ error, (stream.decoder.decode code).outcome = .error error := by
    simp only [result_eq_error]
    exact Decoder.exists_decodeBytes_eq_error hcounted hcodes
  refine ⟨code, hcode, ?_, fun h => ?_, fun first hfirst => ?_⟩
  · exact hfails.trans Decoder.exists_decode_eq_error
  · obtain ⟨error, herror⟩ := h
    exact hfails.2 (Decoder.exists_decode_eq_error_of_first herror)
  · -- Nothing failed, so the search stops at the head of what the filter leaves.
    obtain ⟨found, hfound, hhead⟩ := result_eq_ok.1 hfirst
    obtain ⟨confirmed, hconfirmed, rfl⟩ := Decoder.decodeBytes_eq_ok hcounted hcodes hfound
    refine Traced.outcome_bind_eq_ok.2 ⟨_, Traced.outcome_find?_of_filter hconfirmed, ?_⟩
    rw [← hhead, List.head?_map, Option.map_map]
    rfl

theorem result_agrees_thumb :
    ∃ decoder, Decoder.buildHooked {} Sample.registry Decoder.numbered Sample.thumb = .ok decoder ∧
      decoder.KeepsForms Sample.thumb ∧ decoder.instructions ≠ [] ∧ decoder.IsBytewise ∧
      decoder.codeBitLen / 8 ≤ Decoder.pushBytes.length ∧
      ∃ push, (Stream.mk decoder 0).result Decoder.pushBytes = .ok (some push) ∧
        push.instruction.name = "push_1#1" ∧
        (decoder.decodeFirst 0xe92d4010).outcome = .ok (some push.instruction) := by
  obtain ⟨decoder, hbuild, hkeeps, hne, hbytewise, hlength, hcodes, hfound, -⟩ :=
    Decoder.exists_thumb_pushBytes
  obtain ⟨push, hpush, hname, -⟩ := hfound
  have hresult : (Stream.mk decoder 0).result Decoder.pushBytes = .ok (some push) :=
    result_eq_ok.2 ⟨_, hpush, rfl⟩
  obtain ⟨⟨wide, hwide, hwidth⟩, hagrees⟩ := result_agrees hbuild hkeeps hne hbytewise 0 hlength
  obtain ⟨code, hcode, -, -, hfirst⟩ := hagrees wide hwide hwidth
  obtain rfl := Option.some.inj ((hcodes wide hwide hwidth).symm.trans hcode)
  exact ⟨decoder, hbuild, hkeeps, hne, hbytewise, hlength, push, hresult, hname,
    hfirst _ hresult⟩

/-! ## Overlapping instructions -/

/-- Two instructions with the same fixed bits; the condition of the second one calls a function. -/
def overlapping : Description where
  machine := ⟨.big, none⟩
  instructions := [
    Sample.plain "a" "0000|xxxx:f|xxxxxxxx",
    Sample.matching "b" "0000|xxxx:f|xxxxxxxx" "missing(f) == 1"]
  decoder := none
  extras := none

/-- Without this function a stream fails on bytes of which the first match is found. -/
theorem result_overlapping :
    ∃ decoder, Decoder.build {} Dictionary.empty overlapping = .ok decoder ∧
      decoder.KeepsForms overlapping ∧ decoder.instructions ≠ [] ∧ decoder.IsBytewise ∧
      decoder.codeBitLen / 8 ≤ [(0x01 : Byte), 0x00].length ∧
      (∀ wide ∈ decoder.instructions,
        assemble [0x01, 0x00] decoder.machine.byteOrder wide.form = some 0x100) ∧
      (∃ first, (decoder.decodeFirst 0x100).outcome = .ok (some first) ∧ first.name = "a") ∧
      (Stream.mk decoder 0).result [0x01, 0x00] =
        .error ⟨"b", .undefinedFunction "missing"⟩ := by
  have hvalues : (Decoder.build {} Dictionary.empty overlapping).toOption.map
      (fun decoder => (decoder.instructions.map (·.form),
        (decoder.decodeFirst 0x100).outcome.toOption.map (·.map (·.name)),
        ((Stream.mk decoder 0).result [0x01, 0x00]).map (·.isSome))) =
      some ([⟨16, 1⟩, ⟨16, 1⟩], some (some "a"), .error ⟨"b", .undefinedFunction "missing"⟩) := by
    decide +kernel
  obtain ⟨decoder, hdecoder, hvalues⟩ := Option.map_eq_some_iff.1 hvalues
  have hbuild : Decoder.build {} Dictionary.empty overlapping = .ok decoder :=
    toOption_eq_some.1 hdecoder
  obtain ⟨hforms, hvalues⟩ := Prod.mk.inj hvalues
  obtain ⟨hfirst, hresult⟩ := Prod.mk.inj hvalues
  have hbig : decoder.machine.byteOrder = .big := by
    rw [Decoder.machine_eq hbuild]
    rfl
  refine ⟨decoder, hbuild, Decoder.keepsForms_of_hook hbuild fun _ _ => rfl, ?_, ?_, ?_, ?_, ?_,
    map_eq_error.1 hresult⟩
  · intro hnil
    simp [hnil] at hforms
  · exact Decoder.isBytewise_of_big hbig (by rw [hforms]; decide)
  · rw [Decoder.codeBitLen_eq hbuild, hforms]
    decide
  · have hassembled : ∀ form ∈ decoder.instructions.map (·.form),
        assemble [0x01, 0x00] .big form = some 0x100 := by
      rw [hforms]
      decide
    rw [hbig]
    exact fun wide hwide => hassembled _ (List.mem_map_of_mem hwide)
  · obtain ⟨found, hfound, hnamed⟩ := Option.map_eq_some_iff.1 hfirst
    obtain ⟨first, rfl, hname⟩ := Option.map_eq_some_iff.1 hnamed
    exact ⟨first, toOption_eq_some.1 hfound, hname⟩

end Stream

end IsaCodec
