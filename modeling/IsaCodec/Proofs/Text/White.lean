import IsaCodec.Text.White
import Mathlib.Data.List.TakeWhile

/-! # White space around text and between words

    Trimming takes away white space at the ends of a text and nothing else,
    so white space that is added there makes no difference (`trim_append`,
    `trim_append_right`).  Words are divided at each character of white space
    (`words_append_cons`), and words with single spaces between them are
    divided into the same words again (`words_intercalate`). -/

namespace IsaCodec.Text

/-- Consists of white space only. -/
def AreWhite (s : List Char) : Prop :=
  ∀ c ∈ s, isWhite c

instance (s : List Char) : Decidable (AreWhite s) :=
  decidable_of_iff (s.all isWhite) List.all_eq_true

variable {s t blanks : List Char} {c : Char}

theorem AreWhite.not_mem (h : AreWhite blanks) (hc : isWhite c = false) : c ∉ blanks :=
  fun hmem => ne_true_of_eq_false hc (h c hmem)

/-- No visible ASCII character is white space. -/
theorem isWhite_of_visible (hlow : 0x21 ≤ c.toNat) (hhigh : c.toNat ≤ 0x7e) :
    isWhite c = false := by
  simp only [isWhite, Bool.or_eq_false_iff, Bool.and_eq_false_iff, decide_eq_false_iff_not,
    beq_eq_false_iff_ne]
  omega

theorem isWhite_space : isWhite ' ' := rfl

theorem areWhite_space : AreWhite [' '] := List.forall_mem_singleton.2 isWhite_space

theorem areWhite_spaces : AreWhite [' ', ' '] :=
  List.forall_mem_cons.2 ⟨isWhite_space, areWhite_space⟩

/-! ## Trimming -/

theorem trimStart_append (h : AreWhite blanks) : trimStart (blanks ++ s) = trimStart s :=
  List.dropWhile_append_of_pos h

theorem trimStart_cons_of_not_isWhite (h : isWhite c = false) : trimStart (c :: s) = c :: s := by
  rw [trimStart, List.dropWhile_cons_of_neg (by simpa using h)]

theorem trimEnd_eq_nil : trimEnd s = [] ↔ AreWhite s := by
  induction s with
  | nil => simp [trimEnd, AreWhite]
  | cons c s ih =>
    rw [AreWhite, List.forall_mem_cons, ← AreWhite, ← ih, trimEnd]
    cases hs : trimEnd s with
    | nil => by_cases hc : isWhite c <;> simp [hc]
    | cons d kept => simp

theorem trimEnd_eq_self (h : ∀ c ∈ s, isWhite c = false) : trimEnd s = s := by
  induction s with
  | nil => rfl
  | cons c s ih =>
    obtain ⟨hc, hs⟩ := List.forall_mem_cons.1 h
    rw [trimEnd, ih hs]
    cases s with
    | nil => simp [hc]
    | cons d s => rfl

theorem trimEnd_append_of_ne_nil (h : trimEnd t ≠ []) : trimEnd (s ++ t) = s ++ trimEnd t := by
  induction s with
  | nil => rfl
  | cons c s ih =>
    rw [List.cons_append, trimEnd, ih]
    split
    · next hnil => exact absurd (List.append_eq_nil_iff.1 hnil).2 h
    · rfl

theorem trimEnd_append_of_areWhite (h : AreWhite t) : trimEnd (s ++ t) = trimEnd s := by
  induction s with
  | nil => exact trimEnd_eq_nil.2 h
  | cons c s ih => rw [List.cons_append, trimEnd, ih, trimEnd]

/-- What comes after the end of a trimmed text is trimmed by itself. -/
theorem trimEnd_append (h : trimEnd s = s) : trimEnd (s ++ t) = s ++ trimEnd t := by
  by_cases ht : trimEnd t = []
  · rw [trimEnd_append_of_areWhite (trimEnd_eq_nil.1 ht), h, ht, List.append_nil]
  · exact trimEnd_append_of_ne_nil ht

/-- White space in front of a text makes no difference. -/
theorem trim_append (h : AreWhite blanks) : trim (blanks ++ s) = trim s := by
  rw [trim, trimStart_append h, trim]

theorem trim_trimStart (s : List Char) : trim (trimStart s) = trim s := by
  have hblanks : AreWhite (s.takeWhile isWhite) := fun c hc => List.mem_takeWhile_imp hc
  calc trim (trimStart s) = trim (s.takeWhile isWhite ++ trimStart s) := (trim_append hblanks).symm
    _ = trim s := by rw [trimStart, List.takeWhile_append_dropWhile]

/-- White space after a text makes no difference. -/
theorem trim_append_right (h : AreWhite blanks) : trim (s ++ blanks) = trim s := by
  unfold trim trimStart
  rw [List.dropWhile_append]
  split
  · next hnil =>
    rw [List.isEmpty_iff.1 hnil]
    exact trimEnd_eq_nil.2 fun c hc => h c ((List.dropWhile_sublist _).mem hc)
  · exact trimEnd_append_of_areWhite h

theorem trim_of_areWhite (h : AreWhite s) : trim s = [] := by
  have htrim := trim_append_right (s := []) h
  rwa [List.nil_append] at htrim

/-- Only white space is taken away at the end. -/
theorem exists_eq_trimEnd_append (s : List Char) :
    ∃ blanks, AreWhite blanks ∧ s = trimEnd s ++ blanks := by
  induction s with
  | nil => exact ⟨[], List.forall_mem_nil _, rfl⟩
  | cons c s ih =>
    obtain ⟨blanks, hblanks, heq⟩ := ih
    by_cases h : AreWhite (c :: s)
    · exact ⟨c :: s, h, by rw [trimEnd_eq_nil.2 h, List.nil_append]⟩
    · refine ⟨blanks, hblanks, ?_⟩
      -- The first character is kept: it is no white space itself, or is before what is kept.
      have hkept : trimEnd (c :: s) = c :: trimEnd s := by
        rw [trimEnd]
        split
        · next hnil =>
          rw [if_neg fun hc => h (List.forall_mem_cons.2 ⟨hc, trimEnd_eq_nil.1 hnil⟩), hnil]
        · rfl
      rw [hkept, List.cons_append, ← heq]

theorem trim_trimEnd (s : List Char) : trim (trimEnd s) = trim s := by
  obtain ⟨blanks, hblanks, heq⟩ := exists_eq_trimEnd_append s
  calc trim (trimEnd s) = trim (trimEnd s ++ blanks) := (trim_append_right hblanks).symm
    _ = trim s := by rw [← heq]

/-- A text is its trimmed text with white space around it. -/
theorem exists_eq_append_trim (s : List Char) :
    ∃ before after, AreWhite before ∧ AreWhite after ∧ s = before ++ trim s ++ after := by
  obtain ⟨after, hafter, heq⟩ := exists_eq_trimEnd_append (trimStart s)
  refine ⟨s.takeWhile isWhite, after, fun c hc => List.mem_takeWhile_imp hc, hafter, ?_⟩
  rw [trim, List.append_assoc, ← heq, trimStart, List.takeWhile_append_dropWhile]

/-! ## Words -/

/-- White space **divides** words. -/
theorem words_append_cons (h : isWhite c) : words (s ++ c :: t) = words s ++ words t := by
  rw [words, List.splitOnP_append_cons s t h, List.filter_append, ← words, ← words]

theorem words_cons (h : isWhite c) : words (c :: s) = words s :=
  words_append_cons (s := []) h

theorem words_of_areWhite (h : AreWhite s) : words s = [] := by
  induction s with
  | nil => rfl
  | cons c s ih =>
    obtain ⟨hc, hs⟩ := List.forall_mem_cons.1 h
    rw [words_cons hc, ih hs]

theorem words_append_areWhite (h : AreWhite blanks) : words (s ++ blanks) = words s := by
  cases blanks with
  | nil => rw [List.append_nil]
  | cons c blanks =>
    obtain ⟨hc, hblanks⟩ := List.forall_mem_cons.1 h
    rw [words_append_cons hc, words_of_areWhite hblanks, List.append_nil]

/-- Not empty, and without white space. -/
def IsWord (s : List Char) : Prop :=
  s ≠ [] ∧ ∀ c ∈ s, isWhite c = false

theorem words_of_isWord (h : IsWord s) : words s = [s] := by
  rw [words, List.splitOnP_eq_singleton h.2]
  exact List.filter_cons_of_pos (by simpa using h.1)

theorem forall_mem_splitOnP {p : Char → Bool} {piece : List Char} (h : piece ∈ s.splitOnP p) :
    ∀ c ∈ piece, c ∈ s ∧ p c = false := by
  induction s generalizing piece with
  | nil =>
    rw [List.splitOnP_nil, List.mem_singleton] at h
    rw [h]
    exact List.forall_mem_nil _
  | cons d s ih =>
    rw [List.splitOnP_cons_eq_if_modifyHead] at h
    by_cases hd : p d
    · -- A piece ends at the separator, and the pieces of the rest follow.
      rw [if_pos hd] at h
      rcases List.mem_cons.1 h with rfl | hpiece
      · exact List.forall_mem_nil _
      · exact fun c hc => (ih hpiece c hc).imp_left (List.mem_cons_of_mem d)
    · rw [if_neg hd] at h
      obtain ⟨first, rest, hsplit⟩ := List.exists_cons_of_ne_nil (List.splitOnP_ne_nil p s)
      rw [hsplit] at h ih
      rcases List.mem_cons.1 h with rfl | hpiece
      · refine List.forall_mem_cons.2 ⟨⟨List.mem_cons_self, by simpa using hd⟩, fun c hc => ?_⟩
        exact (ih List.mem_cons_self c hc).imp_left (List.mem_cons_of_mem d)
      · exact fun c hc =>
          (ih (List.mem_cons_of_mem first hpiece) c hc).imp_left (List.mem_cons_of_mem d)

theorem isWord_of_mem_words {word : List Char} (h : word ∈ words s) : IsWord word := by
  obtain ⟨hpiece, hne⟩ := List.mem_filter.1 h
  exact ⟨by simpa using hne, fun c hc => (forall_mem_splitOnP hpiece c hc).2⟩

/-- Words with single spaces between them are **the same words**. -/
theorem words_intercalate {ws : List (List Char)} (h : ∀ word ∈ ws, IsWord word) :
    words ([' '].intercalate ws) = ws := by
  induction ws with
  | nil => rfl
  | cons word rest ih =>
    obtain ⟨hword, hrest⟩ := List.forall_mem_cons.1 h
    cases rest with
    | nil => rw [List.intercalate_singleton, words_of_isWord hword]
    | cons next rest =>
      rw [List.intercalate_cons_cons, List.append_assoc, List.singleton_append,
        words_append_cons isWhite_space, words_of_isWord hword, ih hrest, List.singleton_append]

end IsaCodec.Text
