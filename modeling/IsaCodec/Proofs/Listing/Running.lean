import IsaCodec.Listing.Run
import IsaCodec.Proofs.Listing.Reading
import IsaCodec.Proofs.Listing.Rendering
import IsaCodec.Sample

/-! # Running listings

    An entry is compared by its text and by the length of the first
    instruction.  The length is no second test: if the bytes of an entry are
    as long as the first instruction found in them, an entry passes exactly if
    its text in normal form is the text of what was found
    (`Entry.Decodes.passes_trimmed`).  So an entry passes if it expects just
    what is shown for its bytes (`Entry.Decodes.passes_rendered`).  A run is
    the count of the entries that do not pass, over those that a listing was
    written for (`run_of_isListingOf`). -/

namespace IsaCodec

namespace Listing

/-! ## Entries -/

/-- What a decoder finds in the bytes of an entry: no instruction is called `unknown`, and the bytes
    are as long as the first instruction, if there is one. -/
structure Entry.Decodes (entry : Entry) (decoder : Decoder) (found : List Decoded) : Prop where
  name_ne : ∀ instruction ∈ decoder.instructions, instruction.name ≠ "unknown"
  outcome : (decoder.decodeBytes entry.bytes).outcome = .ok found
  byteLen : ∀ first ∈ found.head?, first.byteLen = entry.bytes.length

/-- An entry passes **exactly if its text is right**. -/
theorem Entry.Decodes.passes_trimmed {entry : Entry} {decoder : Decoder} {found : List Decoded}
    (h : entry.Decodes decoder found) :
    entry.trimmed.passes decoder ↔ normalize entry.expected = renderDecoded found := by
  have hdecode : entry.trimmed.decode decoder =
      ⟨(found.head?.map Decoded.byteLen).getD 0, renderDecoded found⟩ := by
    rw [Entry.decode, Entry.trimmed, h.outcome]
  have hexpected : entry.trimmed.expectedResult =
      ⟨if normalize entry.expected = "unknown" then 0 else entry.bytes.length,
        normalize entry.expected⟩ := by
    rw [Entry.expectedResult, Entry.trimmed, normalize_trim]
  rw [Entry.passes, hdecode, hexpected, decide_eq_true_iff, Result.mk.injEq]
  constructor
  · exact fun hpass => hpass.2.symm
  · intro htext
    refine ⟨?_, htext.symm⟩
    have hunknown := renderDecoded_eq_unknown fun decoded hmem =>
      h.name_ne _ (Decoder.instruction_mem_of_decodeBytes h.outcome hmem)
    -- The length that is expected is zero only if nothing was found.
    rw [htext]
    cases found with
    | nil => rw [if_pos (hunknown.2 rfl)]; rfl
    | cons first rest =>
      rw [if_neg fun heq => List.cons_ne_nil first rest (hunknown.1 heq)]
      exact h.byteLen first rfl

/-- What a decoder **shows is accepted**, if no name of an instruction has white space or bars. -/
theorem Entry.Decodes.passes_rendered {options : Options} {registry : Registry}
    {description : Description} {decoder : Decoder}
    (hbuild : Decoder.build options registry description = .ok decoder)
    (hnames : ∀ instruction ∈ decoder.instructions,
      instruction.name ≠ "" ∧ ArePlain instruction.name.toList)
    {entry : Entry} {found : List Decoded} (h : entry.Decodes decoder found)
    (hexpected : entry.expected = renderDecoded found) : entry.trimmed.passes decoder := by
  have hplain := Decoder.isPlain_of_decodeBytes hbuild hnames h.outcome
  rw [h.passes_trimmed, hexpected, normalize_renderDecoded hplain]

/-! ## Runs -/

/-- A run of a listing counts the entries whose text is wrong. -/
theorem run_of_isListingOf {create : Entry → Decoder} {entries : List Entry} {text : String}
    {found : Entry → List Decoded} (h : IsListingOf entries text)
    (hplain : ∀ entry ∈ entries, entry.IsPlain)
    (hdecodes : ∀ entry ∈ entries, entry.Decodes (create entry.trimmed) (found entry)) :
    run create text =
      match entries.countP fun entry => normalize entry.expected ≠ renderDecoded (found entry) with
      | 0 => .ok ()
      | count => .error (.failed count) := by
  have hread : (read text).mapM id = .ok (entries.map Entry.trimmed) := by
    rw [read_of_isListingOf h hplain, ← mapM_id_map_ok, List.map_map]
    rfl
  have hcount : (entries.map Entry.trimmed).countP (fun entry => !entry.passes (create entry)) =
      entries.countP fun entry => normalize entry.expected ≠ renderDecoded (found entry) := by
    rw [List.countP_map]
    refine List.countP_congr fun entry hentry => ?_
    rw [Function.comp_apply, decide_eq_true_iff, Ne, ← (hdecodes entry hentry).passes_trimmed,
      Bool.not_eq_true, Bool.not_eq_true']
  rw [run, hread]
  show (match (entries.map Entry.trimmed).countP _ with | 0 => _ | count => _) = _
  rw [hcount]
  rfl

/-- **What the runner accepts.**  Normal forms are their own normal forms.  For any listing, whose
    entries may have decoders of their own, the run succeeds if each expected text has the normal
    form of what was found, and else it reports how many have not. -/
theorem run_written :
    (∀ text, normalize (normalize text) = normalize text) ∧
      ∀ (create : Entry → Decoder) (file : String) {entries : List Entry} {text : String}
        {found : Entry → List Decoded}, IsListingOf entries text →
        (∀ entry ∈ entries, entry.IsPlain) →
        (∀ entry ∈ entries, entry.Decodes (create entry.trimmed) (found entry)) →
        let failing :=
          entries.countP fun entry => normalize entry.expected ≠ renderDecoded (found entry)
        (run create text).mapError (RunError.message file) =
          if failing = 0 then .ok () else .error ("failed " ++ toString failing ++ " tests") := by
  refine ⟨normalize_normalize, fun create file {entries text found} h hplain hdecodes => ?_⟩
  intro failing
  rw [run_of_isListingOf h hplain hdecodes]
  show Except.mapError _ (match failing with | 0 => _ | count => _) = _
  cases failing with
  | zero => rfl
  | succ count => rfl

/-- What a decoder finds in the bytes of an entry; nothing, if it fails. -/
def Entry.found (decoder : Decoder) (entry : Entry) : List Decoded :=
  (decoder.decodeBytes entry.bytes).outcome.toOption.getD []

/-- Three entries of the sample expect what is decoded, and the last one does not. -/
theorem run_written_sample :
    ∃ decoder, Decoder.build {} Sample.registry Sample.thumb = .ok decoder ∧
      IsListingOf sampleEntries sampleText ∧ (∀ entry ∈ sampleEntries, entry.IsPlain) ∧
      (∀ entry ∈ sampleEntries, entry.Decodes decoder (entry.found decoder)) ∧
      (run (fun _ => decoder) sampleText).mapError (RunError.message "thumb.test") =
        .error "failed 1 tests" := by
  have hvalues : ∃ decoder ∈ (Decoder.build {} Sample.registry Sample.thumb).toOption,
      (∀ instruction ∈ decoder.instructions, instruction.name ≠ "unknown") ∧
      (∀ entry ∈ sampleEntries, ∃ found ∈ (decoder.decodeBytes entry.bytes).outcome.toOption,
        ∀ first ∈ found.head?, first.byteLen = entry.bytes.length) ∧
      sampleEntries.countP (fun entry =>
        normalize entry.expected ≠ renderDecoded (entry.found decoder)) = 1 := by
    decide +kernel
  obtain ⟨decoder, hbuild, hnames, hfound, hcount⟩ := hvalues
  have hdecodes : ∀ entry ∈ sampleEntries, entry.Decodes decoder (entry.found decoder) := by
    intro entry hentry
    obtain ⟨found, houtcome, hbyteLen⟩ := hfound entry hentry
    have heq : entry.found decoder = found := by
      rw [Entry.found, houtcome]
      rfl
    rw [heq]
    exact ⟨hnames, toOption_eq_some.1 houtcome, hbyteLen⟩
  have hrun := run_written.2 (fun _ => decoder) "thumb.test" isListingOf_sample isPlain_sample
    hdecodes
  rw [hcount] at hrun
  exact ⟨decoder, toOption_eq_some.1 hbuild, isListingOf_sample, isPlain_sample, hdecodes, hrun⟩

end Listing

end IsaCodec
