import IsaCodec.Proofs.Format.Grammar
import Mathlib.Data.List.TakeWhile

/-! # Reading the lexemes of a format

    A lexeme is taken together with the blanks in front of it.  A mark is
    found where it stands; patterns, names and numbers are runs of characters
    that go on for as long as they can.

    * **`spaced_of_eat?`, `eat?_of_spaced`** — both directions for marks.
    * **`exists_spaced_of_spells`, `exists_run_of_spaced`** — both directions
      for runs of any class of characters.
    * **`isSound_pattern`, `isComplete_pattern`**, and the same for names and
      numbers — a run may be followed by anything that does not continue it. -/

namespace IsaCodec

namespace Format

namespace Parser

open Condition.Token (IsIdentifier of_isBlank isWordChar_iff isWordChar_iff_isDigit_or
  not_isDigit_of_isAlpha_or)
open Reader (stop IsSound IsComplete)

variable {s rest : List Char} {c : Char}

/-- A character of a pattern. -/
abbrev isBit (c : Char) : Bool :=
  (PatternBit.ofChar? c).isSome

/-! ## Blanks -/

theorem skipBlanks_append (blanks : List Char) (hblanks : AreBlank blanks) :
    skipBlanks (blanks ++ s) = skipBlanks s :=
  List.dropWhile_append_of_pos hblanks

theorem skipBlanks_cons (hc : ¬Text.isBlank c) : skipBlanks (c :: s) = c :: s :=
  List.dropWhile_cons_of_neg hc

theorem exists_eq_append_skipBlanks (s : List Char) :
    ∃ blanks, AreBlank blanks ∧ s = blanks ++ skipBlanks s :=
  ⟨s.takeWhile Text.isBlank, fun _ hc => List.mem_takeWhile_imp hc,
    List.takeWhile_append_dropWhile.symm⟩

theorem skipBlanks_eq_nil : skipBlanks s = [] ↔ AreBlank s := by
  rw [skipBlanks, List.dropWhile_eq_nil_iff]
  rfl

/-! ## Marks -/

theorem spaced_mark : Spaced s [.mark c] ↔ ∃ blanks, s = blanks ++ [c] ∧ AreBlank blanks := by
  rw [spaced_singleton]
  constructor
  · intro h
    obtain ⟨blanks, piece, rfl, hblanks, hspells⟩ := h
    cases hspells
    exact ⟨blanks, rfl, hblanks⟩
  · intro h
    obtain ⟨blanks, rfl, hblanks⟩ := h
    exact ⟨blanks, [c], rfl, hblanks, .mark c⟩

theorem eat?_append_of_blank {blanks : List Char} (hblanks : AreBlank blanks) :
    eat? c (blanks ++ s) = eat? c s := by
  rw [eat?, skipBlanks_append blanks hblanks]
  rfl

theorem eat?_cons {d : Char} (hd : ¬Text.isBlank d) :
    eat? c (d :: s) = if d = c then some s else none := by
  rw [eat?, skipBlanks_cons hd]

/-- A mark is taken together with the blanks in front of it. -/
theorem spaced_of_eat? (h : eat? c s = some rest) : ∃ t, s = t ++ rest ∧ Spaced t [.mark c] := by
  obtain ⟨blanks, hblanks, hs⟩ := exists_eq_append_skipBlanks s
  unfold eat? at h
  split at h
  · cases h
  · next d later heq =>
    split at h
    · next hd =>
      obtain rfl := Option.some.inj h
      refine ⟨blanks ++ [c], ?_, spaced_mark.2 ⟨blanks, rfl, hblanks⟩⟩
      rw [hs, heq, hd, List.append_assoc, List.singleton_append]
    · cases h

theorem eat?_of_spaced (hc : ¬Text.isBlank c) {t : List Char} (ht : Spaced t [.mark c]) :
    eat? c (t ++ rest) = some rest := by
  obtain ⟨blanks, rfl, hblanks⟩ := spaced_mark.1 ht
  rw [List.append_assoc, eat?_append_of_blank hblanks, List.singleton_append, eat?_cons hc,
    if_pos rfl]

/-- Another mark is not taken. -/
theorem eat?_of_spaced_of_ne (hc : ¬Text.isBlank c) {d : Char} (hne : c ≠ d) {t : List Char}
    (ht : Spaced t [.mark c]) : eat? d (t ++ rest) = none := by
  obtain ⟨blanks, rfl, hblanks⟩ := spaced_mark.1 ht
  rw [List.append_assoc, eat?_append_of_blank hblanks, List.singleton_append, eat?_cons hc,
    if_neg hne]

/-! ## Runs

    Patterns, names and numbers are runs of name characters, though not of all
    of them.  A run is read up to the first character that is not of its class. -/

theorem isNameChar_of_isBit {c : Char} (h : isBit c) : isNameChar c := by
  obtain ⟨bit, hbit⟩ := Option.isSome_iff_exists.1 h
  rw [← PatternBit.char_of_ofChar? hbit]
  cases bit <;> decide

theorem isNameChar_of_isDigit {c : Char} (h : c.isDigit) : isNameChar c :=
  isWordChar_iff_isDigit_or.2 (.inl h)

theorem not_isNameChar_of_isBlank {c : Char} (h : Text.isBlank c) : isNameChar c = false :=
  (of_isBlank h).2.2

/-- A run in front of the text ends there. -/
def EndsRun (rest : List Char) : Prop :=
  rest.takeWhile isNameChar = []

theorem endsRun_cons (hc : isNameChar c = false) : EndsRun (c :: rest) :=
  List.takeWhile_cons_of_neg (by simp [hc])

theorem endsRun_of_areBlank (h : AreBlank rest) : EndsRun rest := by
  cases rest with
  | nil => rfl
  | cons c rest => exact endsRun_cons (not_isNameChar_of_isBlank (h c List.mem_cons_self))

/-- A run ends in front of a mark, with or without blanks between them. -/
theorem endsRun_of_spaced (hc : isNameChar c = false) {t : List Char} (ht : Spaced t [.mark c]) :
    EndsRun (t ++ rest) := by
  obtain ⟨blanks, rfl, hblanks⟩ := spaced_mark.1 ht
  cases blanks with
  | nil => exact endsRun_cons hc
  | cons d blanks =>
    exact endsRun_cons (not_isNameChar_of_isBlank (hblanks d List.mem_cons_self))

section runs

variable {isMember : Char → Bool} {run : List Char} {lexeme : Lexeme}

theorem takeWhile_run (hclass : ∀ c, isMember c → isNameChar c) (hrun : ∀ c ∈ run, isMember c)
    (hends : EndsRun rest) : (run ++ rest).takeWhile isMember = run := by
  rw [List.takeWhile_append_of_pos hrun]
  suffices h : rest.takeWhile isMember = [] by rw [h, List.append_nil]
  cases rest with
  | nil => rfl
  | cons c rest =>
    refine List.takeWhile_cons_of_neg fun hc => ?_
    unfold EndsRun at hends
    rw [List.takeWhile_cons_of_pos (hclass c hc)] at hends
    exact List.cons_ne_nil _ _ hends

/-- What is taken as a run is a lexeme, if it spells one. -/
theorem exists_spaced_of_spells (h : Spells ((skipBlanks s).takeWhile isMember) lexeme) :
    ∃ t, s = t ++ (skipBlanks s).dropWhile isMember ∧ Spaced t [lexeme] := by
  obtain ⟨blanks, hblanks, hs⟩ := exists_eq_append_skipBlanks s
  refine ⟨_, ?_, spaced_singleton.2 ⟨blanks, _, rfl, hblanks, h⟩⟩
  rw [List.append_assoc, List.takeWhile_append_dropWhile]
  exact hs

/-- A lexeme that is a run is taken up to its end. -/
theorem exists_run_of_spaced (hclass : ∀ c, isMember c → isNameChar c)
    (hrun : ∀ run, Spells run lexeme → run ≠ [] ∧ ∀ c ∈ run, isMember c)
    (h : Spaced s [lexeme]) (hends : EndsRun rest) :
    ∃ run, Spells run lexeme ∧ skipBlanks (s ++ rest) = run ++ rest ∧
      (run ++ rest).takeWhile isMember = run ∧ (run ++ rest).dropWhile isMember = rest := by
  obtain ⟨blanks, run, rfl, hblanks, hspells⟩ := spaced_singleton.1 h
  obtain ⟨hne, hmember⟩ := hrun run hspells
  have htake := takeWhile_run hclass hmember hends
  refine ⟨run, hspells, ?_, htake, ?_⟩
  · -- The run does not start with a blank, so that no character of it is skipped.
    obtain ⟨c, tail, rfl⟩ := List.exists_cons_of_ne_nil hne
    have hc : isNameChar c := hclass c (hmember c List.mem_cons_self)
    rw [List.append_assoc, skipBlanks_append blanks hblanks, List.cons_append]
    apply skipBlanks_cons
    intro hblank
    simp [not_isNameChar_of_isBlank hblank] at hc
  · have hsplit := List.takeWhile_append_dropWhile (p := isMember) (l := run ++ rest)
    rw [htake] at hsplit
    exact List.append_cancel_left hsplit

end runs

/-! ## Patterns, names and numbers -/

theorem map_char_filterMap {bits : List Char} (h : ∀ c ∈ bits, isBit c) :
    (bits.filterMap PatternBit.ofChar?).map PatternBit.char = bits := by
  induction bits with
  | nil => rfl
  | cons c bits ih =>
    obtain ⟨hc, hbits⟩ := List.forall_mem_cons.1 h
    obtain ⟨bit, hbit⟩ := Option.isSome_iff_exists.1 hc
    rw [List.filterMap_cons_some hbit, List.map_cons, ih hbits, PatternBit.char_of_ofChar? hbit]

theorem filterMap_map_char (bits : List PatternBit) :
    (bits.map PatternBit.char).filterMap PatternBit.ofChar? = bits := by
  rw [List.filterMap_map]
  simp

theorem pattern_eq (s : List Char) :
    pattern s = match ((skipBlanks s).takeWhile isBit).filterMap PatternBit.ofChar? with
      | [] => stop .expectedPattern (skipBlanks s)
      | bits => .ok (bits, (skipBlanks s).dropWhile isBit) := rfl

theorem isSound_pattern : IsSound pattern (Written fun s bits => s = [.pattern bits]) := by
  intro input bits rest h
  unfold pattern at h
  dsimp only at h
  split at h
  · exact nomatch h
  · next hne =>
    obtain ⟨rfl, rfl⟩ := Prod.mk.inj (Except.ok.inj h)
    have hspells := Spells.pattern hne
    rw [map_char_filterMap fun c hc => List.mem_takeWhile_imp hc] at hspells
    obtain ⟨t, hinput, ht⟩ := exists_spaced_of_spells hspells
    exact ⟨t, hinput, _, ht, rfl⟩

theorem isComplete_pattern :
    IsComplete pattern (Written fun s bits => s = [.pattern bits]) EndsRun := by
  intro s bits rest hs hends
  obtain ⟨lexemes, hs, rfl⟩ := hs
  have hrun : ∀ run, Spells run (.pattern bits) → run ≠ [] ∧ ∀ c ∈ run, isBit c := by
    intro run hspells
    cases hspells with
    | pattern hbits => simp [hbits, isBit]
  obtain ⟨run, hspells, hskip, htake, hdrop⟩ :=
    exists_run_of_spaced (fun _ => isNameChar_of_isBit) hrun hs hends
  cases hspells with
  | pattern hbits =>
    rw [pattern_eq, hskip, htake, hdrop, filterMap_map_char]
    split
    · exact absurd rfl hbits
    · rfl

theorem name_eq (s : List Char) :
    name s = match (skipBlanks s).takeWhile isNameChar with
      | [] => stop .expectedName ((skipBlanks s).dropWhile isNameChar)
      | c :: cs =>
        if c.isDigit then stop .expectedName ((skipBlanks s).dropWhile isNameChar)
        else .ok (String.ofList (c :: cs), (skipBlanks s).dropWhile isNameChar) := rfl

/-- A run of name characters is an identifier unless it starts with a digit. -/
theorem isIdentifier_cons {run : List Char} (hrun : ∀ d ∈ c :: run, isNameChar d)
    (hc : ¬c.isDigit) : IsIdentifier (c :: run) := by
  obtain ⟨hfirst, hrest⟩ := List.forall_mem_cons.1 hrun
  refine ⟨c, run, rfl, ?_, fun d hd => isWordChar_iff.1 (hrest d hd)⟩
  exact (isWordChar_iff_isDigit_or.1 hfirst).resolve_left hc

theorem isSound_name : IsSound name (Written fun s name => s = [.name name]) := by
  intro input word rest h
  rw [name_eq] at h
  split at h
  · cases h
  · next c cs hword =>
    split at h
    · cases h
    · next hc =>
      obtain ⟨rfl, rfl⟩ := Prod.mk.inj (Except.ok.inj h)
      have hrun : ∀ d ∈ c :: cs, isNameChar d := by
        intro d hd
        rw [← hword] at hd
        exact List.mem_takeWhile_imp hd
      have hspells := Spells.name (isIdentifier_cons hrun hc)
      rw [← hword] at hspells
      obtain ⟨t, hinput, ht⟩ := exists_spaced_of_spells hspells
      rw [hword] at ht
      exact ⟨t, hinput, _, ht, rfl⟩

theorem isComplete_name : IsComplete name (Written fun s name => s = [.name name]) EndsRun := by
  intro s word rest hs hends
  obtain ⟨lexemes, hs, rfl⟩ := hs
  have hrun : ∀ run, Spells run (.name word) → run ≠ [] ∧ ∀ c ∈ run, isNameChar c := by
    intro run hspells
    cases hspells with
    | name hword => exact ⟨hword.ne_nil, hword.isWordChar⟩
  obtain ⟨run, hspells, hskip, htake, hdrop⟩ := exists_run_of_spaced (fun _ h => h) hrun hs hends
  cases hspells with
  | name hword =>
    obtain ⟨c, tail, rfl, hc, -⟩ := hword
    rw [name_eq, hskip, htake, hdrop]
    dsimp only
    rw [if_neg (by simp [not_isDigit_of_isAlpha_or hc])]

theorem bitNumber_eq (s : List Char) :
    bitNumber s = match Text.numeral? 10 ((skipBlanks s).takeWhile Char.isDigit) with
      | none => stop .expectedBitNumber (skipBlanks s)
      | some n =>
        if n < 1 <<< 32 then .ok (n, (skipBlanks s).dropWhile Char.isDigit)
        else stop (.bitNumberTooBig (String.ofList ((skipBlanks s).takeWhile Char.isDigit)))
          ((skipBlanks s).dropWhile Char.isDigit) := rfl

theorem isSound_bitNumber : IsSound bitNumber (Written fun s n => s = [.number n]) := by
  intro input n rest h
  rw [bitNumber_eq] at h
  split at h
  · exact nomatch h
  · next value hvalue =>
    split at h
    · next hlt =>
      obtain ⟨rfl, rfl⟩ := Prod.mk.inj (Except.ok.inj h)
      have hspells := Spells.number (Text.numeral?_eq_some.1 hvalue) hlt
      obtain ⟨t, hinput, ht⟩ := exists_spaced_of_spells hspells
      exact ⟨t, hinput, _, ht, rfl⟩
    · exact nomatch h

theorem isComplete_bitNumber :
    IsComplete bitNumber (Written fun s n => s = [.number n]) EndsRun := by
  intro s n rest hs hends
  obtain ⟨lexemes, hs, rfl⟩ := hs
  have hrun : ∀ run, Spells run (.number n) → run ≠ [] ∧ ∀ c ∈ run, c.isDigit := by
    intro run hspells
    cases hspells with
    | number hdigits _ => exact ⟨hdigits.1, hdigits.isDigit_of_mem⟩
  obtain ⟨run, hspells, hskip, htake, hdrop⟩ :=
    exists_run_of_spaced (fun _ => isNameChar_of_isDigit) hrun hs hends
  cases hspells with
  | number hdigits hlt =>
    rw [bitNumber_eq, hskip, htake, hdrop, Text.numeral?_eq_some.2 hdigits]
    exact if_pos hlt

end Parser

end Format

end IsaCodec
