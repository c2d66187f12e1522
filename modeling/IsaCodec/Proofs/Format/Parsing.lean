import IsaCodec.Layout
import IsaCodec.Proofs.Format.Lexemes

/-! # Agreement of the format reader with the grammar

    Every reader is sound and complete for the rule of the same name.
    Completeness needs to know what comes next: a range goes on with a colon,
    a name with a bracket, a list with its separator.

    * **`isSound_listed`, `isComplete_listed`** — both halves pass from the
      parts to the lists of them.
    * **`format_eq_ok`** — the reader of formats takes a text to its end.
    * **`parse_eq_ok`**, **`parse_eq_empty`**, **`exists_parse_eq_malformed`**
      — what is accepted, and what is said of the other texts.
    * **`parseFormat_iff_describes`** — the same for the format of an
      instruction. -/

namespace IsaCodec

namespace Format

namespace Parser

open Reader (stop separated IsSound IsComplete isSound_separated isComplete_separated)

variable {s rest : List Char} {c : Char}

/-! ## Ranges -/

theorem range_eq (s : List Char) :
    range s = bitNumber s >>= fun (msb, rest) =>
      match eat? ':' rest with
      | none => pure (⟨msb, msb⟩, rest)
      | some rest => bitNumber rest >>= fun (lsb, rest) => pure (⟨msb, lsb⟩, rest) := rfl

theorem isSound_range : IsSound range (Written IsRange) := by
  intro input read rest h
  rw [range_eq, bind_eq_ok] at h
  obtain ⟨⟨msb, later⟩, hmsb, hnext⟩ := h
  obtain ⟨s, rfl, _, hs, rfl⟩ := isSound_bitNumber hmsb
  dsimp only at hnext
  cases hcolon : eat? ':' later with
  | none =>
    rw [hcolon] at hnext
    obtain ⟨rfl, rfl⟩ := Prod.mk.inj (pure_eq_ok.1 hnext)
    exact ⟨s, rfl, _, hs, .bit msb⟩
  | some tail =>
    rw [hcolon] at hnext
    obtain ⟨⟨lsb, later'⟩, hlsb, heq⟩ := bind_eq_ok.1 hnext
    obtain ⟨rfl, rfl⟩ := Prod.mk.inj (pure_eq_ok.1 heq)
    obtain ⟨t, rfl, ht⟩ := spaced_of_eat? hcolon
    obtain ⟨u, rfl, _, hu, rfl⟩ := isSound_bitNumber hlsb
    exact ⟨s ++ (t ++ u), by simp, _, hs.append (ht.append hu), .ends msb lsb⟩

/-- What comes next does not belong to a range in front of it. -/
def EndsRange (rest : List Char) : Prop :=
  EndsRun rest ∧ eat? ':' rest = none

theorem isComplete_range : IsComplete range (Written IsRange) EndsRange := by
  intro s read rest hs hends
  obtain ⟨hrun, hcolon⟩ := hends
  obtain ⟨lexemes, hs, hrange⟩ := hs
  rw [range_eq]
  cases hrange with
  | bit n =>
    refine bind_eq_ok.2 ⟨_, isComplete_bitNumber ⟨_, hs, rfl⟩ hrun, ?_⟩
    dsimp only
    rw [hcolon]
    rfl
  | ends msb lsb =>
    obtain ⟨t, u, rfl, ht, hu⟩ := hs.exists_of_cons
    obtain ⟨v, w, rfl, hv, hw⟩ := hu.exists_of_cons
    have hmsb : bitNumber (t ++ (v ++ w) ++ rest) = .ok (msb, v ++ (w ++ rest)) := by
      rw [List.append_assoc, List.append_assoc]
      exact isComplete_bitNumber ⟨_, ht, rfl⟩ (endsRun_of_spaced (by decide) hv)
    refine bind_eq_ok.2 ⟨_, hmsb, ?_⟩
    dsimp only
    rw [eat?_of_spaced (by decide) hv]
    exact bind_eq_ok.2 ⟨_, isComplete_bitNumber ⟨_, hw, rfl⟩ hrun, rfl⟩

/-! ## Lists -/

section lists

variable {α : Type} {item : Reader Fault Char α} {isItem : List Lexeme → α → Prop}
  {ends : List Char → Prop} {mark : Char}

theorem isSound_listed (hitem : IsSound item (Written isItem)) :
    IsSound (separated item (eat? mark)) (Written (Separated (· = [.mark mark]) isItem)) := by
  intro input xs rest h
  obtain ⟨s, hinput, hs⟩ := isSound_separated hitem spaced_of_eat? h
  exact ⟨s, hinput, written_separated.2 hs⟩

theorem isComplete_listed (hitem : IsComplete item (Written isItem) ends)
    (hmark : ¬Text.isBlank mark) (hends : ∀ t rest, Spaced t [.mark mark] → ends (t ++ rest)) :
    IsComplete (separated item (eat? mark)) (Written (Separated (· = [.mark mark]) isItem))
      (fun rest => ends rest ∧ eat? mark rest = none) := by
  intro s xs rest hs hrest
  have hne : ∀ t, Spaced t [.mark mark] → t ≠ [] := by
    intro t ht
    obtain ⟨blanks, rfl, -⟩ := spaced_mark.1 ht
    simp
  exact isComplete_separated hitem hne (fun t rest ht => eat?_of_spaced hmark ht) hends
    (written_separated.1 hs) hrest

end lists

theorem endsRange_of_spaced {mark : Char} (hmark : mark = ',' ∨ mark = ']') {t : List Char}
    (ht : Spaced t [.mark mark]) : EndsRange (t ++ rest) := by
  rcases hmark with rfl | rfl
  all_goals
    exact ⟨endsRun_of_spaced (by decide) ht, eat?_of_spaced_of_ne (by decide) (by decide) ht⟩

theorem ranges_of_bracket {s rest : List Char} (h : eat? '[' s = some rest) :
    ranges s = separated range (eat? ',') rest >>= fun (ranges, rest) =>
      match eat? ']' rest with
      | none => stop .expectedBracket (skipBlanks rest)
      | some rest => pure (ranges, rest) := by
  unfold ranges
  split
  · rename_i hnone
    exact nomatch hnone.symm.trans h
  · rename_i rest' hsome
    obtain rfl := Option.some.inj (hsome.symm.trans h)
    rfl

theorem isSound_ranges : IsSound ranges (Written IsRanges) := by
  intro input read rest h
  cases hopen : eat? '[' input with
  | none =>
    rw [ranges, hopen] at h
    obtain ⟨rfl, rfl⟩ := Prod.mk.inj (Except.ok.inj h)
    exact ⟨[], rfl, [], .nil, .missing⟩
  | some tail =>
    rw [ranges_of_bracket hopen, bind_eq_ok] at h
    obtain ⟨⟨list, later⟩, hlist, hnext⟩ := h
    dsimp only at hnext
    cases hclose : eat? ']' later with
    | none =>
      rw [hclose] at hnext
      exact nomatch hnext
    | some later' =>
      rw [hclose] at hnext
      obtain ⟨rfl, rfl⟩ := Prod.mk.inj (pure_eq_ok.1 hnext)
      obtain ⟨t, rfl, ht⟩ := spaced_of_eat? hopen
      obtain ⟨u, rfl, lexemes, hu, hranges⟩ := isSound_listed isSound_range hlist
      obtain ⟨v, rfl, hv⟩ := spaced_of_eat? hclose
      exact ⟨t ++ (u ++ v), by simp, _, ht.append (hu.append hv), .list hranges⟩

theorem isComplete_ranges :
    IsComplete ranges (Written IsRanges) (fun rest => eat? '[' rest = none) := by
  intro s read rest hs hends
  obtain ⟨lexemes, hs, hranges⟩ := hs
  cases hranges with
  | missing =>
    obtain rfl := spaced_nil.1 hs
    rw [List.nil_append, ranges, hends]
  | list h =>
    obtain ⟨t, u, rfl, ht, hu⟩ := hs.exists_of_cons
    obtain ⟨v, w, rfl, hv, hw⟩ := spaced_append.1 hu
    have hopen : eat? '[' (t ++ (v ++ w) ++ rest) = some (v ++ (w ++ rest)) := by
      rw [List.append_assoc, List.append_assoc]
      exact eat?_of_spaced (by decide) ht
    have hlist : separated range (eat? ',') (v ++ (w ++ rest)) = .ok (read, w ++ rest) := by
      refine isComplete_listed isComplete_range (by decide) ?_ ⟨_, hv, h⟩ ⟨?_, ?_⟩
      · intro t rest ht
        exact endsRange_of_spaced (.inl rfl) ht
      · exact endsRange_of_spaced (.inr rfl) hw
      · exact eat?_of_spaced_of_ne (by decide) (by decide) hw
    rw [ranges_of_bracket hopen]
    refine bind_eq_ok.2 ⟨_, hlist, ?_⟩
    dsimp only
    rw [eat?_of_spaced (by decide) hw]
    rfl

/-! ## Segments -/

theorem segment_eq (s : List Char) :
    segment s = pattern s >>= fun (pattern, rest) =>
      match eat? ':' rest with
      | none => pure (⟨pattern, none, []⟩, rest)
      | some rest => name rest >>= fun (name, rest) => ranges rest >>= fun (ranges, rest) =>
        pure (⟨pattern, some name, ranges⟩, rest) := rfl

theorem isSound_segment : IsSound segment (Written IsSegment) := by
  intro input read rest h
  rw [segment_eq, bind_eq_ok] at h
  obtain ⟨⟨bits, later⟩, hbits, hnext⟩ := h
  obtain ⟨s, rfl, _, hs, rfl⟩ := isSound_pattern hbits
  dsimp only at hnext
  cases hcolon : eat? ':' later with
  | none =>
    rw [hcolon] at hnext
    obtain ⟨rfl, rfl⟩ := Prod.mk.inj (pure_eq_ok.1 hnext)
    exact ⟨s, rfl, _, hs, .pattern bits⟩
  | some tail =>
    rw [hcolon] at hnext
    obtain ⟨⟨field, later₁⟩, hname, hnext⟩ := bind_eq_ok.1 hnext
    obtain ⟨⟨list, later₂⟩, hranges, heq⟩ := bind_eq_ok.1 hnext
    obtain ⟨rfl, rfl⟩ := Prod.mk.inj (pure_eq_ok.1 heq)
    obtain ⟨t, rfl, ht⟩ := spaced_of_eat? hcolon
    obtain ⟨u, rfl, _, hu, rfl⟩ := isSound_name hname
    obtain ⟨v, rfl, _, hv, hlist⟩ := isSound_ranges hranges
    exact ⟨s ++ (t ++ (u ++ v)), by simp, _, hs.append (ht.append (hu.append hv)),
      .named bits field hlist⟩

/-- What comes next does not belong to a segment in front of it. -/
structure EndsSegment (rest : List Char) : Prop where
  run : EndsRun rest
  name : eat? ':' rest = none
  ranges : eat? '[' rest = none

theorem endsSegment_of_spaced {mark : Char} (hmark : mark = '|' ∨ mark = ',') {t : List Char}
    (ht : Spaced t [.mark mark]) : EndsSegment (t ++ rest) := by
  rcases hmark with rfl | rfl
  all_goals
    exact ⟨endsRun_of_spaced (by decide) ht, eat?_of_spaced_of_ne (by decide) (by decide) ht,
      eat?_of_spaced_of_ne (by decide) (by decide) ht⟩

/-- Ranges start with a bracket, so they end a name in front of them. -/
theorem endsRun_of_isRanges {s : List Char} {lexemes : List Lexeme} {list : List BitRange}
    (hs : Spaced s lexemes) (hlist : IsRanges lexemes list) (hrest : EndsRun rest) :
    EndsRun (s ++ rest) := by
  cases hlist with
  | missing =>
    obtain rfl := spaced_nil.1 hs
    exact hrest
  | list h =>
    obtain ⟨t, u, rfl, ht, -⟩ := hs.exists_of_cons
    rw [List.append_assoc]
    exact endsRun_of_spaced (by decide) ht

theorem isComplete_segment : IsComplete segment (Written IsSegment) EndsSegment := by
  intro s read rest hs hends
  obtain ⟨lexemes, hs, hsegment⟩ := hs
  rw [segment_eq]
  cases hsegment with
  | pattern bits =>
    refine bind_eq_ok.2 ⟨_, isComplete_pattern ⟨_, hs, rfl⟩ hends.run, ?_⟩
    dsimp only
    rw [hends.name]
    rfl
  | named bits field hlist =>
    obtain ⟨t, later, rfl, ht, hlater⟩ := hs.exists_of_cons
    obtain ⟨u, later, rfl, hu, hlater⟩ := hlater.exists_of_cons
    obtain ⟨v, w, rfl, hv, hw⟩ := hlater.exists_of_cons
    have hbits : pattern (t ++ (u ++ (v ++ w)) ++ rest) = .ok (bits, u ++ (v ++ (w ++ rest))) := by
      simp only [List.append_assoc]
      exact isComplete_pattern ⟨_, ht, rfl⟩ (endsRun_of_spaced (by decide) hu)
    have hname : name (v ++ (w ++ rest)) = .ok (field, w ++ rest) :=
      isComplete_name ⟨_, hv, rfl⟩ (endsRun_of_isRanges hw hlist hends.run)
    refine bind_eq_ok.2 ⟨_, hbits, ?_⟩
    dsimp only
    rw [eat?_of_spaced (by decide) hu]
    exact bind_eq_ok.2 ⟨_, hname, bind_eq_ok.2 ⟨_, isComplete_ranges ⟨_, hw, hlist⟩ hends.ranges,
      rfl⟩⟩

/-! ## Elements -/

theorem isSound_element : IsSound element (Written IsElement) := by
  intro input read rest h
  obtain ⟨⟨segments, later⟩, hsegments, heq⟩ := bind_eq_ok.1 h
  obtain ⟨rfl, rfl⟩ := Prod.mk.inj (pure_eq_ok.1 heq)
  exact isSound_listed isSound_segment hsegments

/-- What comes next does not belong to an element in front of it. -/
def EndsElement (rest : List Char) : Prop :=
  EndsSegment rest ∧ eat? '|' rest = none

theorem isComplete_element : IsComplete element (Written IsElement) EndsElement := by
  intro s read rest hs hends
  have hsegments : separated segment (eat? '|') (s ++ rest) = .ok (read.segments, rest) := by
    refine isComplete_listed isComplete_segment (by decide) ?_ hs hends
    intro t rest ht
    exact endsSegment_of_spaced (.inl rfl) ht
  exact bind_eq_ok.2 ⟨_, hsegments, rfl⟩

/-! ## Whole texts -/

theorem format_eq (s : List Char) :
    format s = separated element (eat? ',') s >>= fun (elements, rest) =>
      match skipBlanks rest with
      | [] => pure (⟨elements⟩, [])
      | c :: rest => stop (.unexpectedCharacter (leadingByte c)) (c :: rest) := rfl

/-- A format is read up to the blanks at the end of the text. -/
theorem format_eq_ok {read : Format} :
    format s = .ok (read, rest) ↔
      rest = [] ∧ ∃ t blanks lexemes, s = t ++ blanks ∧ AreBlank blanks ∧ Spaced t lexemes ∧
        IsFormat lexemes read := by
  rw [format_eq, bind_eq_ok]
  constructor
  · intro h
    obtain ⟨⟨elements, later⟩, helements, hend⟩ := h
    obtain ⟨t, rfl, lexemes, ht, hformat⟩ := isSound_listed isSound_element helements
    dsimp only at hend
    split at hend
    · next hblank =>
      obtain ⟨rfl, rfl⟩ := Prod.mk.inj (pure_eq_ok.1 hend)
      exact ⟨rfl, t, later, lexemes, rfl, skipBlanks_eq_nil.1 hblank, ht, hformat⟩
    · cases hend
  · intro h
    obtain ⟨rfl, t, blanks, lexemes, rfl, hblanks, ht, hformat⟩ := h
    -- Blanks end everything that could go on.
    have hnone : ∀ mark, eat? mark blanks = none := by
      intro mark
      rw [eat?, skipBlanks_eq_nil.2 hblanks]
    have hends : EndsElement blanks :=
      ⟨⟨endsRun_of_areBlank hblanks, hnone ':', hnone '['⟩, hnone '|'⟩
    have helements : separated element (eat? ',') (t ++ blanks) = .ok (read.elements, blanks) := by
      refine isComplete_listed isComplete_element (by decide) ?_ ⟨_, ht, hformat⟩ ⟨hends, hnone ','⟩
      intro t rest ht
      exact ⟨endsSegment_of_spaced (.inr rfl) ht, eat?_of_spaced_of_ne (by decide) (by decide) ht⟩
    refine ⟨_, helements, ?_⟩
    dsimp only
    rw [skipBlanks_eq_nil.2 hblanks]
    rfl

/-- The first item of a list is read from the front of its input. -/
theorem exists_item_of_separated {α : Type} {item : Reader Fault Char α} {xs : List α}
    (h : separated item (eat? c) s = .ok (xs, rest)) : ∃ x later, item s = .ok (x, later) := by
  refine Reader.separated_induction
    (motive := fun s _ _ => ∃ x later, item s = .ok (x, later)) ?_ ?_ h
  · intro input x rest hx
    exact ⟨x, rest, hx⟩
  · intro input x s t xs rest hx _ _
    exact ⟨x, s, hx⟩

/-- A format starts with a pattern, so there is none in a blank text. -/
theorem format_ne_ok_of_areBlank (hs : AreBlank s) {x : Format × List Char} :
    format s ≠ .ok x := by
  intro h
  obtain ⟨_, helements, -⟩ := bind_eq_ok.1 h
  obtain ⟨_, _, helement⟩ := exists_item_of_separated helements
  obtain ⟨_, hsegments, -⟩ := bind_eq_ok.1 helement
  obtain ⟨_, _, hsegment⟩ := exists_item_of_separated hsegments
  obtain ⟨_, hpattern, -⟩ := bind_eq_ok.1 hsegment
  rw [pattern_eq, skipBlanks_eq_nil.2 hs] at hpattern
  exact nomatch hpattern

end Parser

theorem parse_of_areBlank {text : String} (h : AreBlank text.toList) :
    parse text = .error .empty := by
  unfold parse
  dsimp only
  rw [if_pos (by rw [Parser.skipBlanks_eq_nil.2 h]; rfl)]

theorem parse_of_not_areBlank {text : String} (h : ¬AreBlank text.toList) :
    parse text = match Parser.format text.toList with
      | .ok (format, _) => .ok format
      | .error stopped =>
        .error (.malformed (text.toList.length - stopped.rest.length) stopped.cause) := by
  have hblank : ¬(Parser.skipBlanks text.toList).isEmpty := by
    simpa [Parser.skipBlanks_eq_nil] using h
  exact if_neg hblank

theorem parse_eq_ok {text : String} {read : Format} :
    parse text = .ok read ↔ Describes text read := by
  constructor
  · intro h
    by_cases hblank : AreBlank text.toList
    · rw [parse_of_areBlank hblank] at h
      cases h
    · rw [parse_of_not_areBlank hblank] at h
      split at h
      · next format rest hformat =>
        obtain rfl := Except.ok.inj h
        exact (Parser.format_eq_ok.1 hformat).2
      · cases h
  · intro h
    have hformat : Parser.format text.toList = .ok (read, []) := Parser.format_eq_ok.2 ⟨rfl, h⟩
    have hblank : ¬AreBlank text.toList :=
      fun hblank => Parser.format_ne_ok_of_areBlank hblank hformat
    rw [parse_of_not_areBlank hblank, hformat]

/-- A text describes at most one format. -/
theorem Describes.unique {text : String} {a b : Format} (ha : Describes text a)
    (hb : Describes text b) : a = b :=
  Except.ok.inj ((parse_eq_ok.2 ha).symm.trans (parse_eq_ok.2 hb))

theorem parse_eq_empty {text : String} : parse text = .error .empty ↔ AreBlank text.toList := by
  constructor
  · intro h
    by_contra hblank
    rw [parse_of_not_areBlank hblank] at h
    split at h <;> cases h
  · exact parse_of_areBlank

/-- Every other text that is rejected is wrong at some position. -/
theorem exists_parse_eq_malformed {text : String} :
    (∃ position fault, parse text = .error (.malformed position fault)) ↔
      ¬AreBlank text.toList ∧ ¬∃ format, Describes text format := by
  constructor
  · intro h
    obtain ⟨position, fault, h⟩ := h
    refine ⟨fun hblank => ?_, fun ⟨format, hformat⟩ => ?_⟩
    · rw [parse_of_areBlank hblank] at h
      cases h
    · rw [parse_eq_ok.2 hformat] at h
      cases h
  · intro h
    obtain ⟨hblank, hnone⟩ := h
    cases h : parse text with
    | ok format => exact absurd ⟨format, parse_eq_ok.1 h⟩ hnone
    | error error =>
      cases error with
      | empty => exact absurd (parse_eq_empty.1 h) hblank
      | malformed position fault => exact ⟨position, fault, rfl⟩

/-- The comma divides ranges inside of brackets and elements outside of them. -/
example : (parse " 1110 | xxxx:a , xx:b[3:2, 0] ").toOption.map
    (fun format => format.elements.map fun element => element.segments.map (·.ranges)) =
      some [[[], []], [[⟨3, 2⟩, ⟨0, 0⟩]]] := by decide +kernel

end Format

namespace Layout

theorem parseFormat_eq {name text : String} :
    parseFormat name text = match Format.parse text with
      | .ok format => .ok format
      | .error error => .error ⟨name, .format error⟩ := by
  unfold parseFormat
  cases Format.parse text <;> rfl

theorem parseFormat_eq_ok {name text : String} {format : Format} :
    parseFormat name text = .ok format ↔ Format.Describes text format := by
  rw [parseFormat, mapError_eq_ok, Format.parse_eq_ok]

theorem parseFormat_eq_error {name text : String} {error : Format.ParseError} :
    parseFormat name text = .error ⟨name, .format error⟩ ↔ Format.parse text = .error error := by
  rw [parseFormat_eq]
  cases Format.parse text <;> simp

/-- An instruction accepts exactly the texts that describe a format, whatever its name is, and
    takes them as the one format that they describe.  A blank text is reported as empty, and every
    other text that is rejected as malformed. -/
theorem parseFormat_iff_describes (name text : String) :
    (∀ format, parseFormat name text = .ok format ↔ Format.Describes text format) ∧
      (∀ a b, Format.Describes text a → Format.Describes text b → a = b) ∧
      (parseFormat name text = .error ⟨name, .format .empty⟩ ↔
        ∀ c ∈ text.toList, Text.isBlank c) ∧
      ((∃ position fault,
          parseFormat name text = .error ⟨name, .format (.malformed position fault)⟩) ↔
        ¬(∀ c ∈ text.toList, Text.isBlank c) ∧ ¬∃ format, Format.Describes text format) := by
  refine ⟨fun format => parseFormat_eq_ok, fun a b ha hb => ha.unique hb, ?_, ?_⟩
  · rw [parseFormat_eq_error, Format.parse_eq_empty]
    rfl
  · simp only [parseFormat_eq_error]
    exact Format.exists_parse_eq_malformed

end Layout

end IsaCodec
