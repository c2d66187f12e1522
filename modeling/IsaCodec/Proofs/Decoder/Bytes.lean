import IsaCodec.Proofs.Bytes.Assembly
import IsaCodec.Proofs.Decoder.Forms
import IsaCodec.Proofs.Traced.Filter
import IsaCodec.Proofs.Traced.Lanes

/-! # Bytes against codes

    Bytes are decoded form by form, each form with a code of its own; a code
    is decoded with all forms at once, and the candidates are sorted before
    they are confirmed.  Both come down to filtering lists of candidates by
    their conditions.

    * **`decodeBytes_eq`** — decoding bytes is one filter over the lookups in
      all trees, for any forms whose bits can be counted.
    * **`exists_code`** — in a bytewise instruction set the codes of all forms
      are the leading bits of the code of the widest one.
    * **`candidates_perm`** — so bytes and code have the same candidates, in
      another order.
    * **`decodeBytes_agrees`** — and the same instructions are found, with the
      same codes and fields. -/

namespace IsaCodec

open scoped List

/-- What a candidate is once it is confirmed. -/
def Candidate.decoded (candidate : Candidate) : Decoded :=
  ⟨candidate.index, candidate.instruction, candidate.code,
    candidate.instruction.decodeFields candidate.code⟩

namespace Decoder

/-! ## One filter -/

/-- The candidates of the leading bytes, form by form. -/
def byteCandidates (decoder : Decoder) (bytes : List Byte) : List Candidate :=
  lookups (assemble bytes decoder.machine.byteOrder) decoder.instructions decoder.trees

/-- A tree confirms the instruction of an index in one go.  Put differently, an index without the
    fixed bits gives no candidate, and the conditions of the candidates are left to be tested. -/
theorem decode_tree_eq (registry : Registry) (instructions : List Instruction)
    {tree : DecisionTree} {code : Code} (hcode : code &&& tree.form.codeMask = code) :
    tree.decode registry instructions code =
      Traced.filter
        (fun index => (candidateAt instructions code index).elim (pure false) (·.confirm registry))
        (tree.candidates code) := by
  unfold DecisionTree.decode
  rw [hcode]
  refine congrArg (Traced.filter · _) (funext fun index => ?_)
  rw [candidateAt]
  cases instructions[index]? with
  | none => rfl
  | some instruction =>
    by_cases hfixed : instruction.matchesFixedBits code
    · simp [Instruction.confirm, Candidate.confirm, hfixed]
    · simp [Instruction.confirm, hfixed]

theorem decodeForm_eq (decoder : Decoder) (bytes : List Byte) {tree : DecisionTree}
    (hcounted : tree.form.IsCounted) :
    decoder.decodeForm bytes tree =
      Traced.filter (·.confirm decoder.registry)
          ((assemble bytes decoder.machine.byteOrder tree.form).elim [] fun code =>
            lookup decoder.instructions code tree) >>= fun passed =>
        pure (passed.map Candidate.decoded) := by
  unfold decodeForm
  cases hcode : assemble bytes decoder.machine.byteOrder tree.form with
  | none => rfl
  | some code =>
    simp only [decode_tree_eq _ _ (and_codeMask_of_assemble hcounted hcode), Option.elim_some]
    -- An index that passes has a candidate, with the instruction that is looked up again.
    refine Traced.filter_filterMap _ (fun index candidate h => ?_) _
    obtain ⟨rfl, rfl, hinstruction, -⟩ := candidateAt_eq_some.1 h
    rw [hinstruction]
    rfl

/-- What is found in bytes is an instruction of the decoder. -/
theorem instruction_mem_of_decodeBytes {decoder : Decoder} {bytes : List Byte}
    {found : List Decoded} (hfound : (decoder.decodeBytes bytes).outcome = .ok found)
    {decoded : Decoded} (hmem : decoded ∈ found) : decoded.instruction ∈ decoder.instructions := by
  obtain ⟨parts, hparts, hsorted⟩ := Traced.outcome_bind_eq_ok.1 hfound
  obtain rfl := Except.ok.inj hsorted
  obtain ⟨part, hpart, hmem⟩ := List.mem_flatten.1 ((sortBy_perm _ _).mem_iff.1 hmem)
  -- It was found in one of the trees, at the index of the instruction.
  have hforms := (Traced.onLanes_collect (decoder.decodeForm bytes) decoder.trees).values hparts
  obtain ⟨i, hi, rfl⟩ := List.getElem_of_mem hpart
  obtain ⟨hlength, htrees⟩ := List.forall₂_iff_get.1 hforms
  have htree := htrees i (hlength ▸ hi) hi
  rw [List.get_eq_getElem, List.get_eq_getElem] at htree
  generalize decoder.trees[i] = tree, parts[i] = part at htree hmem
  unfold decodeForm at htree
  cases hcode : assemble bytes decoder.machine.byteOrder tree.form with
  | none =>
    rw [hcode] at htree
    cases htree
    cases hmem
  | some code =>
    rw [hcode] at htree
    obtain ⟨indices, -, hindices⟩ := Traced.outcome_bind_eq_ok.1 htree
    obtain rfl := Except.ok.inj hindices
    obtain ⟨index, -, hindex⟩ := List.mem_filterMap.1 hmem
    obtain ⟨instruction, hinstruction, rfl⟩ := Option.map_eq_some_iff.1 hindex
    exact List.mem_of_getElem? hinstruction

section counted

variable {options : Options} {registry : Registry} {description : Description}
  {instructions : List Instruction} {bytes : List Byte}
  (hcounted : ∀ instruction ∈ instructions, instruction.form.IsCounted)

include hcounted

/-- **Decoding bytes** filters the candidates of all forms, and sorts what is left. -/
theorem decodeBytes_eq (bytes : List Byte) :
    let decoder := ofInstructions options registry description instructions
    decoder.decodeBytes bytes =
      Traced.filter (·.confirm registry) (decoder.byteCandidates bytes) >>= fun passed =>
        pure (sortBy (fun a b => a.index ≤ b.index) (passed.map Candidate.decoded)) := by
  intro decoder
  -- The trees have the forms of the instructions.
  have hforms : ∀ tree ∈ decoder.trees, decoder.decodeForm bytes tree =
      Traced.filter (·.confirm registry)
          ((assemble bytes decoder.machine.byteOrder tree.form).elim [] fun code =>
            lookup instructions code tree) >>= fun passed =>
        pure (passed.map Candidate.decoded) := by
    intro tree htree
    obtain ⟨form, hform, rfl⟩ := List.mem_map.1 htree
    obtain ⟨instruction, hmem, rfl⟩ := mem_ofList_forms.1 hform
    exact decoder.decodeForm_eq bytes (hcounted instruction hmem)
  rw [decodeBytes, Traced.collect_congr hforms, Traced.collect_bind_pure, byteCandidates, lookups,
    ← Traced.collect_filter, Traced.bind_assoc, Traced.bind_assoc]
  simp only [Traced.pure_bind, List.map_flatten]
  rfl

theorem mem_byteCandidates {candidate : Candidate}
    (h : candidate ∈
      (ofInstructions options registry description instructions).byteCandidates bytes) :
    candidate.instruction ∈ instructions ∧
      assemble bytes description.machine.byteOrder candidate.instruction.form =
        some candidate.code := by
  have hcodes : ∀ instruction ∈ instructions, ∀ code,
      assemble bytes description.machine.byteOrder instruction.form = some code →
        code &&& instruction.form.codeMask = code := fun instruction hmem _ =>
    and_codeMask_of_assemble (hcounted instruction hmem)
  obtain ⟨hindex, hcode, -⟩ := (mem_lookups hcodes).1 h
  exact ⟨List.mem_of_getElem? hindex, hcode⟩

/-- What is found in bytes is an instruction of the decoder, its code is the one that the bytes hold
    in its form, and its fields are those of the code. -/
theorem mem_of_decodeBytes {found : List Decoded}
    (hfound : ((ofInstructions options registry description instructions).decodeBytes
      bytes).outcome = .ok found) {decoded : Decoded} (hmem : decoded ∈ found) :
    decoded.instruction ∈ instructions ∧
      assemble bytes description.machine.byteOrder decoded.instruction.form =
        some decoded.code ∧
      decoded.fields = decoded.instruction.decodeFields decoded.code := by
  -- It was a candidate: sorting and filtering add nothing.
  rw [decodeBytes_eq hcounted, Traced.outcome_bind_eq_ok] at hfound
  obtain ⟨passed, hpassed, hsorted⟩ := hfound
  obtain rfl := Except.ok.inj hsorted
  obtain ⟨candidate, hcandidate, rfl⟩ := List.mem_map.1 ((sortBy_perm _ _).mem_iff.1 hmem)
  obtain ⟨-, rfl⟩ := Traced.filter_eq_ok.1 hpassed
  obtain ⟨hinstruction, hcode⟩ := mem_byteCandidates hcounted (List.mem_of_mem_filter hcandidate)
  exact ⟨hinstruction, hcode, rfl⟩

end counted

/-! ## The same candidates -/

/-- In a bytewise instruction set the bytes of a widest form are enough for all forms: there is a
    code, and its leading bits are the code of each other form. -/
theorem exists_code {description : Description} {decoder : Decoder} {bytes : List Byte}
    {wide : Instruction} (hkeeps : decoder.KeepsForms description)
    (hbytewise : decoder.IsBytewise)
    (hwidest : ∀ instruction ∈ decoder.instructions,
      instruction.form.bitLen ≤ decoder.codeBitLen)
    (hlength : decoder.codeBitLen / 8 ≤ bytes.length) (hwide : wide ∈ decoder.instructions)
    (hwidth : wide.form.bitLen = decoder.codeBitLen) :
    ∃ code, assemble bytes decoder.machine.byteOrder wide.form = some code ∧
      ∀ instruction ∈ decoder.instructions,
        assemble bytes decoder.machine.byteOrder instruction.form =
          some (instruction.form.align code decoder.codeBitLen) := by
  have hwhole := hbytewise.whole wide hwide
  have hshort : wide.form.byteLen ≤ bytes.length := by
    have := Form.mul_byteLen hwhole
    omega
  obtain ⟨code, hcode⟩ : ∃ code, assemble bytes decoder.machine.byteOrder wide.form = some code :=
    ⟨_, (assemble_eq_some (hkeeps.isCounted hwide)).2 ⟨hwhole, hshort, rfl⟩⟩
  refine ⟨code, hcode, fun instruction hinstruction => ?_⟩
  rw [← hwidth]
  refine assemble_align (hkeeps.fitsWord hwide) (hkeeps.fitsWord hinstruction)
    (hbytewise.whole instruction hinstruction) (hwidth ▸ hwidest instruction hinstruction) ?_ hcode
  rcases hbytewise.order with hbig | hsame
  · exact .inl hbig
  · exact .inr (hsame instruction hinstruction wide hwide)

section same

variable {options : Options} {registry : Registry} {description : Description}
  {instructions : List Instruction} {bytes : List Byte} {code : Code}
  (hcounted : ∀ instruction ∈ instructions, instruction.form.IsCounted)
  (hcodes : ∀ instruction ∈ instructions,
    assemble bytes description.machine.byteOrder instruction.form =
      some (instruction.form.align code (widest instructions)))

include hcodes

/-- **The candidates** of the bytes are those of the code, in another order. -/
theorem candidates_perm :
    let decoder := ofInstructions options registry description instructions
    decoder.byteCandidates bytes ~ decoder.candidates code := by
  intro decoder
  rw [candidates_ofInstructions]
  refine lookups_perm ?_ (pairwise_matching _ _ _) fun candidate => ?_
  · intro instruction hmem aligned haligned
    rw [← Option.some.inj ((hcodes instruction hmem).symm.trans haligned),
      Form.align_and_codeMask]
  · rw [mem_matching]
    refine and_congr_right fun hinstruction => and_congr_left fun _ => ?_
    show _ ↔ assemble bytes description.machine.byteOrder _ = _
    rw [hcodes _ (List.mem_of_getElem? hinstruction), Option.some.injEq, eq_comm]

include hcounted

/-- The conditions that are evaluated are the same for the bytes and for the code, so one of them
    fails for the bytes exactly if one fails for the code. -/
theorem exists_decodeBytes_eq_error :
    let decoder := ofInstructions options registry description instructions
    (∃ error, (decoder.decodeBytes bytes).outcome = .error error) ↔
      ∃ error, (decoder.decode code).outcome = .error error := by
  intro decoder
  have hperm : decoder.byteCandidates bytes ~ decoder.candidates code := candidates_perm hcodes
  rw [decodeBytes_eq hcounted, decode]
  -- Neither sorting nor the list of the instructions adds an error to those of the filters.
  refine (exists_congr fun _ => Traced.outcome_bind_pure_eq_error).trans ?_
  refine Iff.trans ?_ (exists_congr fun _ => Traced.outcome_bind_pure_eq_error).symm
  rw [Traced.exists_filter_eq_error, Traced.exists_filter_eq_error]
  exact exists_congr fun _ => and_congr_left fun _ => hperm.mem_iff

/-- If none fails, sorting brings what was found in the bytes into the order of declaration. -/
theorem decodeBytes_eq_ok {found : List Decoded} :
    let decoder := ofInstructions options registry description instructions
    (decoder.decodeBytes bytes).outcome = .ok found →
      ∃ confirmed, (Traced.filter (·.confirm registry) (decoder.candidates code)).outcome =
          .ok confirmed ∧
        found = confirmed.map Candidate.decoded := by
  intro decoder h
  have hperm : decoder.byteCandidates bytes ~ decoder.candidates code := candidates_perm hcodes
  rw [decodeBytes_eq hcounted, Traced.outcome_bind_eq_ok] at h
  obtain ⟨passed, hpassed, hsorted⟩ := h
  obtain rfl := Except.ok.inj hsorted
  obtain ⟨htests, rfl⟩ := Traced.filter_eq_ok.1 hpassed
  refine ⟨_, Traced.filter_eq_ok.2 ⟨fun candidate hcandidate =>
    htests candidate (hperm.mem_iff.2 hcandidate), rfl⟩, ?_⟩
  -- The candidates of the code are in order of declaration before they are confirmed.
  refine sortBy_eq_of_perm ((hperm.filter _).map Candidate.decoded) ?_
  rw [List.pairwise_map, candidates_ofInstructions]
  exact (pairwise_matching _ _ _).filter _

end same

/-! ## Built decoders -/

/-- **Bytes agree with codes**: in a bytewise instruction set there is a widest form, and bytes that
    are enough for it hold a code of it.  Decoding the bytes fails exactly if decoding this code
    does.  Otherwise both find the same instructions in the same order, and what is found in the
    bytes has the aligned code and the fields that are extracted from the code. -/
theorem decodeBytes_agrees {options : Options} {registry : Registry} {hook : Hook}
    {description : Description} {decoder : Decoder}
    (hbuild : buildHooked options registry hook description = .ok decoder)
    (hkeeps : decoder.KeepsForms description) (hne : decoder.instructions ≠ [])
    (hbytewise : decoder.IsBytewise) {bytes : List Byte}
    (hlength : decoder.codeBitLen / 8 ≤ bytes.length) :
    (∃ wide ∈ decoder.instructions, wide.form.bitLen = decoder.codeBitLen) ∧
      ∀ wide ∈ decoder.instructions, wide.form.bitLen = decoder.codeBitLen →
        ∃ code, assemble bytes decoder.machine.byteOrder wide.form = some code ∧
          ((∃ error, (decoder.decodeBytes bytes).outcome = .error error) ↔
            ∃ error, (decoder.decode code).outcome = .error error) ∧
          ∀ found, (decoder.decodeBytes bytes).outcome = .ok found →
            (decoder.decode code).outcome = .ok (found.map (·.instruction)) ∧
            ∀ decoded ∈ found,
              decoded.code = decoded.instruction.form.align code decoder.codeBitLen ∧
                decoded.fields = decoder.extract code decoded.instruction := by
  obtain ⟨instructions, -, rfl⟩ := buildHooked_eq_ok.1 hbuild
  obtain ⟨hexists, hwidest⟩ := exists_widest hne
  have hcounted : ∀ instruction ∈ instructions, instruction.form.IsCounted :=
    fun _ => hkeeps.isCounted
  refine ⟨hexists, fun wide hwide hwidth => ?_⟩
  obtain ⟨code, hcode, hcodes⟩ := exists_code hkeeps hbytewise hwidest hlength hwide hwidth
  refine ⟨code, hcode, ?_, fun found hfound => ⟨?_, fun decoded hdecoded => ?_⟩⟩
  · exact exists_decodeBytes_eq_error hcounted hcodes
  · obtain ⟨confirmed, hconfirmed, rfl⟩ := decodeBytes_eq_ok hcounted hcodes hfound
    refine Traced.outcome_bind_eq_ok.2 ⟨confirmed, hconfirmed, ?_⟩
    rw [List.map_map]
    rfl
  · -- Both the bytes and the aligned code determine the code of the instruction.
    obtain ⟨hmem, hassembled, hfields⟩ := mem_of_decodeBytes hcounted hfound hdecoded
    have haligned := Option.some.inj (hassembled.symm.trans (hcodes _ hmem))
    refine ⟨haligned, ?_⟩
    rw [hfields, haligned]
    rfl

/-- Bytes of a push, and one more byte. -/
def pushBytes : List Byte :=
  [0xe9, 0x2d, 0x40, 0x10, 0xff]

/-- What a push of two registers has in its fields. -/
def pushFields : FieldValues :=
  [("M", 1), ("register_list", 0x10)]

/-- The push is all that these bytes start with, and with its bytes dropped there is nothing. -/
theorem exists_thumb_pushBytes :
    ∃ decoder, buildHooked {} Sample.registry numbered Sample.thumb = .ok decoder ∧
      decoder.KeepsForms Sample.thumb ∧ decoder.instructions ≠ [] ∧ decoder.IsBytewise ∧
      decoder.codeBitLen / 8 ≤ pushBytes.length ∧
      (∀ wide ∈ decoder.instructions, wide.form.bitLen = decoder.codeBitLen →
        assemble pushBytes decoder.machine.byteOrder wide.form = some 0xe92d4010) ∧
      (∃ push, (decoder.decodeBytes pushBytes).outcome = .ok [push] ∧
        push.instruction.name = "push_1#1" ∧ push.byteLen = 4 ∧ push.fields = pushFields) ∧
      (decoder.decodeBytes [0xff]).outcome = .ok [] := by
  have hvalues : ∃ decoder ∈ (buildHooked {} Sample.registry numbered Sample.thumb).toOption,
      decoder.instructions.map (·.form) = [⟨16, 2⟩, ⟨16, 2⟩, ⟨16, 1⟩, ⟨16, 1⟩] ∧
      (∃ found ∈ (decoder.decodeBytes pushBytes).outcome.toOption,
        (found.map fun decoded => (decoded.instruction.name, decoded.byteLen)) =
            [("push_1#1", 4)] ∧
          found.map (·.fields) = [pushFields]) ∧
      ∃ found ∈ (decoder.decodeBytes [0xff]).outcome.toOption, found.length = 0 := by
    decide +kernel
  obtain ⟨decoder, hdecoder, hforms, ⟨found, hpush, hentries, hfields⟩, none, hnothing, hlength⟩ :=
    hvalues
  have hbuild := toOption_eq_some.1 hdecoder
  have hbig : decoder.machine.byteOrder = .big := by
    rw [machine_eq hbuild]
    rfl
  have hbits : decoder.codeBitLen = 32 := by
    rw [codeBitLen_eq hbuild, hforms]
    rfl
  refine ⟨decoder, hbuild, keepsForms_of_hook hbuild fun _ _ => rfl, ?_, ?_, ?_, ?_, ?_, ?_⟩
  · intro hnil
    simp [hnil] at hforms
  · exact isBytewise_of_big hbig (by rw [hforms]; decide)
  · rw [hbits]
    decide
  · have hassembled : ∀ form ∈ decoder.instructions.map (·.form), form.bitLen = 32 →
        assemble pushBytes .big form = some 0xe92d4010 := by
      rw [hforms]
      decide
    rw [hbig, hbits]
    exact fun wide hwide => hassembled _ (List.mem_map_of_mem hwide)
  · obtain ⟨push, rfl, hentry⟩ := List.map_eq_singleton_iff.1 hentries
    obtain ⟨hname, hfour⟩ := Prod.mk.inj hentry
    exact ⟨push, toOption_eq_some.1 hpush, hname, hfour, List.head_eq_of_cons_eq hfields⟩
  · rw [← List.length_eq_zero_iff.1 hlength]
    exact toOption_eq_some.1 hnothing

theorem decodeBytes_agrees_thumb :
    ∃ decoder, buildHooked {} Sample.registry numbered Sample.thumb = .ok decoder ∧
      decoder.KeepsForms Sample.thumb ∧ decoder.instructions ≠ [] ∧ decoder.IsBytewise ∧
      decoder.codeBitLen / 8 ≤ pushBytes.length ∧
      ∃ push, (decoder.decodeBytes pushBytes).outcome = .ok [push] ∧
        push.instruction.name = "push_1#1" ∧
        (decoder.decode 0xe92d4010).outcome = .ok [push.instruction] ∧
        push.code = push.instruction.form.align 0xe92d4010 decoder.codeBitLen ∧
        push.fields = pushFields ∧
        decoder.extract 0xe92d4010 push.instruction = pushFields := by
  obtain ⟨decoder, hbuild, hkeeps, hne, hbytewise, hlength, hcodes, hfound, -⟩ :=
    exists_thumb_pushBytes
  obtain ⟨push, hpush, hname, -, hfields⟩ := hfound
  obtain ⟨⟨wide, hwide, hwidth⟩, hagrees⟩ := decodeBytes_agrees hbuild hkeeps hne hbytewise hlength
  obtain ⟨code, hcode, -, hfinds⟩ := hagrees wide hwide hwidth
  obtain rfl := Option.some.inj ((hcodes wide hwide hwidth).symm.trans hcode)
  obtain ⟨hdecode, hentries⟩ := hfinds [push] hpush
  obtain ⟨halign, hextract⟩ := hentries push (List.mem_singleton_self push)
  exact ⟨decoder, hbuild, hkeeps, hne, hbytewise, hlength, push, hpush, hname, hdecode, halign,
    hfields, hextract ▸ hfields⟩

end Decoder

end IsaCodec
