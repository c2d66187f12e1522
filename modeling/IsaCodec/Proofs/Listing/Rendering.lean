import IsaCodec.Proofs.Decoder.Bytes
import IsaCodec.Proofs.Format.Parsing
import IsaCodec.Proofs.Listing.Normal

/-! # Texts of what was found

    What was found in bytes is shown as items with bars between them, and each
    item as words with spaces between them.  Normal forms are laid out in the
    same way, so the text is its own normal form as long as no name has white
    space or bars in it.

    * **`normalize_renderDecoded`** — the text of plain items is normal.
    * **`isPlain_of_decodeBytes`** — the items are plain if the names of the
      instructions are; the names of fields are identifiers anyway, as the
      grammar of formats has it.
    * **`renderDecoded_eq_unknown`** — which text reads `unknown`. -/

namespace IsaCodec

open Text Listing
open Condition.Token (IsIdentifier isWordChar isWordChar_iff_isDigit_or toNat_of_isAlpha)

/-! ## Plain texts -/

/-- Has neither white space nor bars. -/
def ArePlain (s : List Char) : Prop :=
  ∀ c ∈ s, isWhite c = false ∧ c ≠ '|'

instance (s : List Char) : Decidable (ArePlain s) :=
  decidable_of_iff (s.all fun c => !isWhite c && c != '|') (by simp [ArePlain])

theorem ArePlain.append {s t : List Char} (hs : ArePlain s) (ht : ArePlain t) :
    ArePlain (s ++ t) :=
  List.forall_mem_append.2 ⟨hs, ht⟩

theorem ArePlain.isWord {word : List Char} (h : ArePlain word) (hne : word ≠ []) :
    IsWord word ∧ '|' ∉ word :=
  ⟨⟨hne, fun c hc => (h c hc).1⟩, fun hbar => (h '|' hbar).2 rfl⟩

theorem arePlain_of_isWordChar {word : List Char} (h : ∀ c ∈ word, isWordChar c) :
    ArePlain word := by
  intro c hc
  have hbounds : '0'.toNat ≤ c.toNat ∧ c.toNat ≤ 'z'.toNat := by
    rcases isWordChar_iff_isDigit_or.1 (h c hc) with hdigit | halpha | rfl
    · obtain ⟨hlow, hhigh⟩ := Bool.and_eq_true_iff.1 hdigit
      have hle : c.toNat ≤ '9'.toNat := of_decide_eq_true hhigh
      exact ⟨of_decide_eq_true hlow, Nat.le_trans hle (by decide)⟩
    · obtain ⟨hlow, hhigh⟩ := toNat_of_isAlpha halpha
      exact ⟨Nat.le_trans (by decide) hlow, hhigh⟩
    · decide
  -- A bar comes after all letters.
  refine ⟨isWhite_of_visible (Nat.le_trans (by decide) hbounds.1)
    (Nat.le_trans hbounds.2 (by decide)), ?_⟩
  rintro rfl
  exact absurd hbounds.2 (by decide)

theorem arePlain_toDigits (n : Nat) : ArePlain (Nat.toDigits 16 n) := by
  have hdigit : ∀ d < 16, ArePlain [d.digitChar] := by decide
  induction n using Nat.strongRecOn with
  | ind n ih =>
    rw [Nat.toDigits_eq_if (by decide)]
    by_cases hn : n < 16
    · rw [if_pos hn]
      exact hdigit n hn
    · rw [if_neg hn]
      exact (ih (n / 16) (by omega)).append (hdigit (n % 16) (Nat.mod_lt n (by decide)))

theorem arePlain_hex (value : Code) : ArePlain value.hex.toList := by
  have hsign : ArePlain ['0', 'x'] := by decide
  rw [Code.hex, String.toList_ofList]
  exact hsign.append (arePlain_toDigits value.toNat)

/-! ## Items -/

namespace Decoded

/-- The words of an item: the name of the instruction, and the names and values of its fields. -/
def words (decoded : Decoded) : List (List Char) :=
  decoded.instruction.name.toList ::
    decoded.fields.map fun (name, value) => (name ++ "=" ++ value.hex).toList

theorem toList_text (decoded : Decoded) :
    decoded.text.toList = [' '].intercalate decoded.words := by
  unfold text words
  cases hfields : decoded.fields with
  | nil => rw [List.map_nil, List.intercalate_singleton]
  | cons field fields =>
    rw [String.toList_append, String.toList_append, FieldValues.text, String.toList_intercalate,
      List.map_map, List.map_cons, List.map_cons, List.intercalate_cons_cons]
    rfl

/-- The names in an item are plain, and the instruction has a name. -/
structure IsPlain (decoded : Decoded) : Prop where
  name_ne : decoded.instruction.name ≠ ""
  name : ArePlain decoded.instruction.name.toList
  fields : ∀ field ∈ decoded.fields, ArePlain field.1.toList

theorem IsPlain.areItemWords {decoded : Decoded} (h : decoded.IsPlain) :
    AreItemWords decoded.words := by
  have hequals : ArePlain "=".toList := by decide
  unfold words AreItemWords
  rw [List.forall_mem_cons, List.forall_mem_map]
  refine ⟨h.name.isWord (by simpa using h.name_ne), fun field hfield => ArePlain.isWord ?_ ?_⟩
  · show ArePlain (field.1 ++ "=" ++ field.2.hex).toList
    rw [String.toList_append, String.toList_append]
    exact ((h.fields field hfield).append hequals).append (arePlain_hex field.2)
  · simp

end Decoded

/-! ## All items -/

/-- The items that are shown.  A word of its own stands for nothing. -/
def shownItems : List Decoded → List (List (List Char))
  | [] => [["unknown".toList]]
  | found => found.map Decoded.words

theorem toList_renderDecoded (found : List Decoded) :
    (renderDecoded found).toList = joinItems (shownItems found) := by
  cases found with
  | nil => rfl
  | cons first rest =>
    show (" | ".intercalate ((first :: rest).map Decoded.text)).toList =
      joinItems ((first :: rest).map Decoded.words)
    rw [String.toList_intercalate, joinItems, List.map_map, List.map_map]
    exact congrArg _ (List.map_congr_left fun decoded _ => decoded.toList_text)

theorem shownItems_ne_nil (found : List Decoded) : shownItems found ≠ [] := by
  cases found <;> exact List.cons_ne_nil _ _

theorem areItemWords_of_mem_shownItems {found : List Decoded}
    (h : ∀ decoded ∈ found, decoded.IsPlain) :
    ∀ item ∈ shownItems found, AreItemWords item := by
  cases found with
  | nil =>
    have hword : ArePlain "unknown".toList := by decide
    exact List.forall_mem_singleton.2 (List.forall_mem_singleton.2 (hword.isWord (by decide)))
  | cons first rest =>
    exact List.forall_mem_map.2 fun decoded hdecoded => (h decoded hdecoded).areItemWords

/-- The text of plain items is **its own normal form**. -/
theorem normalize_renderDecoded {found : List Decoded} (h : ∀ decoded ∈ found, decoded.IsPlain) :
    Listing.normalize (renderDecoded found) = renderDecoded found := by
  rw [Listing.normalize, normalizeChars_eq, toList_renderDecoded,
    itemWords_joinItems (shownItems_ne_nil found) (areItemWords_of_mem_shownItems h),
    ← toList_renderDecoded, String.ofList_toList]

theorem text_ne_unknown {decoded : Decoded} (h : decoded.instruction.name ≠ "unknown") :
    decoded.text ≠ "unknown" := by
  unfold Decoded.text
  split
  · exact h
  · -- There is a space between the name and the fields.
    intro heq
    have hspace : ' ' ∉ "unknown".toList := by decide
    refine hspace ?_
    rw [← heq, String.toList_append, String.toList_append]
    exact List.mem_append_left _ (List.mem_append_right _ List.mem_cons_self)

/-- Only what stands for nothing reads `unknown`. -/
theorem renderDecoded_eq_unknown {found : List Decoded}
    (h : ∀ decoded ∈ found, decoded.instruction.name ≠ "unknown") :
    renderDecoded found = "unknown" ↔ found = [] := by
  refine ⟨fun heq => ?_, fun hnil => by rw [hnil]; rfl⟩
  match found, h, heq with
  | [], _, _ => rfl
  | [decoded], h, heq =>
    have htext : " | ".intercalate [decoded.text] = "unknown" := heq
    rw [String.intercalate_singleton] at htext
    exact absurd htext (text_ne_unknown (h decoded (List.mem_singleton_self decoded)))
  | first :: second :: rest, _, heq =>
    -- There is a bar between two instructions.
    have htext : (" | ".intercalate
        (first.text :: second.text :: rest.map Decoded.text)).toList = "unknown".toList :=
      congrArg String.toList heq
    rw [String.toList_intercalate, List.map_cons, List.map_cons, List.intercalate_cons_cons,
      List.append_assoc] at htext
    have hbar : '|' ∉ "unknown".toList := by decide
    rw [← htext] at hbar
    exact absurd (List.mem_append_right _ (List.mem_append_left _ (by decide))) hbar

/-! ## Built decoders -/

theorem Instruction.isIdentifier_of_compile {description : InstructionDescription}
    {instruction : Instruction} (h : compile description = .ok instruction) {field : Field}
    (hfield : field ∈ instruction.fields) : IsIdentifier field.name.toList := by
  obtain ⟨format, layout, hformat, -, hlaysOut, -, -, hfields⟩ := exists_laysOut_of_compile h
  rw [hfields] at hfield
  obtain ⟨segment, hsegment, hname⟩ := (hlaysOut.names field.name).1 (List.mem_map_of_mem hfield)
  exact (Format.parse_eq_ok.1 hformat).isIdentifier hsegment hname

/-- Without a hook, what is found in bytes is plain if the **names of the instructions** are. -/
theorem Decoder.isPlain_of_decodeBytes {options : Options} {registry : Registry}
    {description : Description} {decoder : Decoder}
    (hbuild : build options registry description = .ok decoder)
    (hnames : ∀ instruction ∈ decoder.instructions,
      instruction.name ≠ "" ∧ ArePlain instruction.name.toList)
    {bytes : List Byte} {found : List Decoded}
    (hfound : (decoder.decodeBytes bytes).outcome = .ok found) :
    ∀ decoded ∈ found, decoded.IsPlain := by
  have hkeeps : decoder.KeepsForms description := keepsForms_of_hook hbuild fun _ _ => rfl
  obtain ⟨instructions, hcompiled, rfl⟩ := buildHooked_eq_ok.1 hbuild
  intro decoded hdecoded
  obtain ⟨hmem, -, hfields⟩ := mem_of_decodeBytes (fun _ => hkeeps.isCounted) hfound hdecoded
  obtain ⟨entry, hentry⟩ := exists_compile_of_compileAll hcompiled _ hmem
  refine ⟨(hnames _ hmem).1, (hnames _ hmem).2, ?_⟩
  rw [hfields, Instruction.decodeFields, List.forall_mem_map]
  exact fun field hfield => arePlain_of_isWordChar
    (Instruction.isIdentifier_of_compile hentry hfield).isWordChar

end IsaCodec
