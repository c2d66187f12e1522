import IsaCodec.Format.Parser
import IsaCodec.Proofs.Condition.Pieces
import IsaCodec.Proofs.Reading

/-! # Grammar of encoding formats

    Which lexemes describe which format:

        format  := element ("," element)*
        element := segment ("|" segment)*
        segment := pattern (":" name ranges?)?
        ranges  := "[" range ("," range)* "]"
        range   := number (":" number)?

    Blanks may stand in front of every lexeme and at the end of the text, and
    nowhere else.  The comma separates elements and ranges alike; the
    brackets tell which it is.

    * **`Spells`** — the lexemes and their spellings.
    * **`Spaced`** — lexemes in a text, with blanks in front of them.
    * **`IsRange`, `IsSegment`, `IsElement`, `IsFormat`** — the rules.
    * **`Describes`** — a text and the format that its lexemes describe.
    * **`spaced_append`, `written_separated`** — the spacing of a sequence is
      the spacing of its parts, so that texts have the rules of lexemes. -/

namespace IsaCodec.Format

open Condition.Token (IsIdentifier)

/-! ## Lexemes -/

/-- What stands between blanks as one piece. -/
inductive Lexeme where
  /-- A character by itself. -/
  | mark (c : Char)
  | pattern (bits : List PatternBit)
  | name (name : String)
  | number (n : Nat)

/-- The spellings of a lexeme: a pattern has a character for each bit, a number is below
    `2 ^ 32`. -/
inductive Spells : List Char → Lexeme → Prop where
  | mark (c : Char) : Spells [c] (.mark c)
  | pattern {bits : List PatternBit} (hbits : bits ≠ []) :
      Spells (bits.map PatternBit.char) (.pattern bits)
  | name {word : List Char} (hword : IsIdentifier word) : Spells word (.name (String.ofList word))
  | number {digits : List Char} {n : Nat} (hdigits : Text.IsNumeralIn 10 digits n)
      (hn : n < 2 ^ 32) : Spells digits (.number n)

/-- Nothing but blanks. -/
def AreBlank (s : List Char) : Prop :=
  ∀ c ∈ s, Text.isBlank c

/-- Lexemes one after the other, each with any number of blanks in front of it. -/
inductive Spaced : List Char → List Lexeme → Prop where
  | nil : Spaced [] []
  | cons {blanks piece rest : List Char} {lexeme : Lexeme} {lexemes : List Lexeme}
      (hblanks : AreBlank blanks) (hspells : Spells piece lexeme) (hrest : Spaced rest lexemes) :
      Spaced (blanks ++ (piece ++ rest)) (lexeme :: lexemes)

/-! ## Rules -/

/-- The lexemes of a range.  A single number is both of its ends. -/
inductive IsRange : List Lexeme → BitRange → Prop where
  | bit (n : Nat) : IsRange [.number n] ⟨n, n⟩
  | ends (msb lsb : Nat) : IsRange [.number msb, .mark ':', .number lsb] ⟨msb, lsb⟩

/-- The lexemes of the ranges after a name, which may be missing. -/
inductive IsRanges : List Lexeme → List BitRange → Prop where
  | missing : IsRanges [] []
  | list {s : List Lexeme} {ranges : List BitRange}
      (h : Separated (· = [.mark ',']) IsRange s ranges) :
      IsRanges (.mark '[' :: (s ++ [.mark ']'])) ranges

/-- The lexemes of a segment. -/
inductive IsSegment : List Lexeme → Segment → Prop where
  | pattern (bits : List PatternBit) : IsSegment [.pattern bits] ⟨bits, none, []⟩
  | named {s : List Lexeme} (bits : List PatternBit) (name : String) {ranges : List BitRange}
      (hranges : IsRanges s ranges) :
      IsSegment (.pattern bits :: .mark ':' :: .name name :: s) ⟨bits, some name, ranges⟩

/-- The lexemes of an element. -/
def IsElement (s : List Lexeme) (element : Element) : Prop :=
  Separated (· = [.mark '|']) IsSegment s element.segments

/-- The lexemes of a format. -/
def IsFormat (s : List Lexeme) (format : Format) : Prop :=
  Separated (· = [.mark ',']) IsElement s format.elements

/-- A text consists of lexemes that describe a format, and perhaps of blanks at its end. -/
def Describes (text : String) (format : Format) : Prop :=
  ∃ s blanks lexemes, text.toList = s ++ blanks ∧ AreBlank blanks ∧ Spaced s lexemes ∧
    IsFormat lexemes format

/-! ## Spacing -/

section spacing

variable {s t : List Char} {lexeme : Lexeme} {lexemes more : List Lexeme}

theorem spaced_nil : Spaced s [] ↔ s = [] := by
  constructor
  · intro h
    cases h
    rfl
  · rintro rfl
    exact .nil

theorem spaced_cons :
    Spaced s (lexeme :: lexemes) ↔
      ∃ blanks piece rest, s = blanks ++ (piece ++ rest) ∧ AreBlank blanks ∧
        Spells piece lexeme ∧ Spaced rest lexemes := by
  constructor
  · intro h
    cases h with
    | cons hblanks hspells hrest => exact ⟨_, _, _, rfl, hblanks, hspells, hrest⟩
  · intro h
    obtain ⟨blanks, piece, rest, rfl, hblanks, hspells, hrest⟩ := h
    exact .cons hblanks hspells hrest

theorem spaced_singleton :
    Spaced s [lexeme] ↔
      ∃ blanks piece, s = blanks ++ piece ∧ AreBlank blanks ∧ Spells piece lexeme := by
  simp only [spaced_cons, spaced_nil]
  constructor
  · intro h
    obtain ⟨blanks, piece, rest, rfl, hblanks, hspells, rfl⟩ := h
    exact ⟨blanks, piece, by rw [List.append_nil], hblanks, hspells⟩
  · intro h
    obtain ⟨blanks, piece, rfl, hblanks, hspells⟩ := h
    exact ⟨blanks, piece, [], by rw [List.append_nil], hblanks, hspells, rfl⟩

/-- A sequence of lexemes is spaced part by part. -/
theorem spaced_append :
    Spaced s (lexemes ++ more) ↔ ∃ t u, s = t ++ u ∧ Spaced t lexemes ∧ Spaced u more := by
  induction lexemes generalizing s with
  | nil =>
    simp only [List.nil_append, spaced_nil]
    constructor
    · intro h
      exact ⟨[], s, rfl, rfl, h⟩
    · intro h
      obtain ⟨t, u, rfl, rfl, hu⟩ := h
      exact hu
  | cons lexeme lexemes ih =>
    rw [List.cons_append, spaced_cons]
    constructor
    · intro h
      obtain ⟨blanks, piece, rest, rfl, hblanks, hspells, hrest⟩ := h
      obtain ⟨t, u, rfl, ht, hu⟩ := ih.1 hrest
      exact ⟨blanks ++ (piece ++ t), u, by simp, .cons hblanks hspells ht, hu⟩
    · intro h
      obtain ⟨t, u, rfl, ht, hu⟩ := h
      obtain ⟨blanks, piece, rest, rfl, hblanks, hspells, hrest⟩ := spaced_cons.1 ht
      exact ⟨blanks, piece, rest ++ u, by simp, hblanks, hspells, ih.2 ⟨rest, u, rfl, hrest, hu⟩⟩

/-- The first lexeme is spaced apart from the others. -/
theorem Spaced.exists_of_cons (h : Spaced s (lexeme :: lexemes)) :
    ∃ t u, s = t ++ u ∧ Spaced t [lexeme] ∧ Spaced u lexemes := by
  have hsplit : Spaced s ([lexeme] ++ lexemes) := h
  exact spaced_append.1 hsplit

theorem Spaced.append (hs : Spaced s lexemes) (ht : Spaced t more) :
    Spaced (s ++ t) (lexemes ++ more) :=
  spaced_append.2 ⟨s, t, rfl, hs, ht⟩

end spacing

/-! ## Rules for texts -/

section written

variable {α : Type} {isPart : List Lexeme → α → Prop} {s : List Char}

/-- A text whose lexemes a rule allows for a value. -/
def Written (rule : List Lexeme → α → Prop) (s : List Char) (x : α) : Prop :=
  ∃ lexemes, Spaced s lexemes ∧ rule lexemes x

/-- Parts with a mark between them are written one after the other. -/
theorem written_separated {c : Char} {xs : List α} :
    Written (Separated (· = [.mark c]) isPart) s xs ↔
      Separated (Spaced · [.mark c]) (Written isPart) s xs := by
  constructor
  · intro h
    obtain ⟨lexemes, hs, h⟩ := h
    induction h generalizing s with
    | one hpart => exact .one ⟨_, hs, hpart⟩
    | more hpart hmark _ ih =>
      subst hmark
      obtain ⟨t, u, rfl, ht, hu⟩ := spaced_append.1 hs
      obtain ⟨v, w, rfl, hv, hw⟩ := spaced_append.1 hu
      exact .more ⟨_, ht, hpart⟩ hv (ih hw)
  · intro h
    induction h with
    | one hpart =>
      obtain ⟨lexemes, hs, hpart⟩ := hpart
      exact ⟨lexemes, hs, .one hpart⟩
    | more hpart hmark _ ih =>
      obtain ⟨lexemes, hs, hpart⟩ := hpart
      obtain ⟨others, hrest, hothers⟩ := ih
      exact ⟨_, hs.append (hmark.append hrest), .more hpart rfl hothers⟩

end written

/-! ## Names -/

theorem Spaced.isIdentifier {s : List Char} {lexemes : List Lexeme} (h : Spaced s lexemes)
    {name : String} (hname : .name name ∈ lexemes) : IsIdentifier name.toList := by
  induction h with
  | nil => cases hname
  | cons _ hspells _ ih =>
    rcases List.mem_cons.1 hname with rfl | hrest
    · cases hspells with
      | name hword => rwa [String.toList_ofList]
    · exact ih hrest

theorem IsSegment.name_mem {s : List Lexeme} {segment : Segment} (h : IsSegment s segment)
    {name : String} (hname : segment.name = some name) : .name name ∈ s := by
  cases h with
  | pattern => cases hname
  | named bits written hranges =>
    obtain rfl := Option.some.inj hname
    exact List.mem_cons_of_mem _ (List.mem_cons_of_mem _ List.mem_cons_self)

/-- The names in a format are **identifiers**. -/
theorem Describes.isIdentifier {text : String} {format : Format} (h : Describes text format)
    {segment : Segment} (hsegment : segment ∈ format.segments) {name : String}
    (hname : segment.name = some name) : IsIdentifier name.toList := by
  obtain ⟨s, blanks, lexemes, -, -, hspaced, hformat⟩ := h
  obtain ⟨element, helement, hsegment⟩ := List.mem_flatMap.1 hsegment
  -- The lexemes of the segment are among those of the text.
  obtain ⟨t, ht, helement⟩ := Separated.exists_infix_of_mem hformat helement
  obtain ⟨u, hu, hsegment⟩ := Separated.exists_infix_of_mem helement hsegment
  exact hspaced.isIdentifier (ht.subset (hu.subset (hsegment.name_mem hname)))

end IsaCodec.Format
