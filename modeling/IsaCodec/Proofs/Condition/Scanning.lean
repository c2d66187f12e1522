import IsaCodec.Proofs.Condition.Pieces

/-! # Scanning finds the pieces

    * **`read_eq_ok`** — reading a token takes the longest piece.
    * **`exists_scan_eq_ok`** — scanning a text gives the tokens of its
      division, if there is one. -/

namespace IsaCodec

namespace Condition.Token

open Text (IsNumeralIn)

/-! ## Numerals of a word -/

/-- A numeral starts with a digit. -/
theorem IsNumeral.exists_eq_cons {word : List Char} {n : Nat} (h : IsNumeral word n) :
    ∃ c rest, word = c :: rest ∧ c.isDigit := by
  cases h with
  | decimal h =>
    obtain ⟨c, rest, rfl⟩ := List.exists_cons_of_ne_nil h.1
    exact ⟨c, rest, rfl, h.isDigit_of_mem c List.mem_cons_self⟩
  | hexadecimal | binary => exact ⟨'0', _, rfl, by decide⟩

/-- The sign of a base is no decimal digit. -/
theorem numeral?_of_isNumeralIn {word : List Char} {n : Nat} (h : IsNumeralIn 10 word n) :
    numeral? word = (Text.boundedNumeral? 10 64 word).map (BitVec.ofNat 64) := by
  have hdigit := h.isDigit_of_mem
  unfold numeral?
  split
  case h_5 => rfl
  all_goals exact absurd (hdigit _ (List.mem_cons_of_mem _ List.mem_cons_self)) (by decide)

theorem numeral?_eq_some {word : List Char} {value : Code} :
    numeral? word = some value ↔
      ∃ n, IsNumeral word n ∧ n < 2 ^ 64 ∧ value = BitVec.ofNat 64 n := by
  constructor
  · intro h
    obtain ⟨n, hn, rfl⟩ := Option.map_eq_some_iff.1 h
    split at hn
    all_goals
      obtain ⟨hnumeral, hlt⟩ := Text.boundedNumeral?_eq_some.1 hn
    case h_1 => exact ⟨n, .hexadecimal (.inl rfl) hnumeral, hlt, rfl⟩
    case h_2 => exact ⟨n, .hexadecimal (.inr rfl) hnumeral, hlt, rfl⟩
    case h_3 => exact ⟨n, .binary (.inl rfl) hnumeral, hlt, rfl⟩
    case h_4 => exact ⟨n, .binary (.inr rfl) hnumeral, hlt, rfl⟩
    case h_5 => exact ⟨n, .decimal hnumeral, hlt, rfl⟩
  · rintro ⟨n, hnumeral, hlt, rfl⟩
    cases hnumeral with
    | decimal h =>
      rw [numeral?_of_isNumeralIn h, Text.boundedNumeral?_eq_some.2 ⟨h, hlt⟩]
      rfl
    | hexadecimal hsign h =>
      have hvalue := Text.boundedNumeral?_eq_some.2 ⟨h, hlt⟩
      rcases hsign with rfl | rfl <;> simp only [numeral?, hvalue, Option.map_some]
    | binary hsign h =>
      have hvalue := Text.boundedNumeral?_eq_some.2 ⟨h, hlt⟩
      rcases hsign with rfl | rfl <;> simp only [numeral?, hvalue, Option.map_some]

/-! ## Reading a token -/

section read

variable {c : Char} {s rest : List Char} {token : Token}

theorem comparison?_eq_none (hc : isSign c = false) : comparison? (c :: s) = none := by
  rw [Option.eq_none_iff_forall_ne_some]
  rintro ⟨operator, rest⟩ h
  obtain ⟨d, tail, heq, hd⟩ := exists_symbol_eq_cons operator
  have htext := (comparison?_eq_some.1 h).1
  rw [heq] at htext
  obtain ⟨rfl, -⟩ := List.cons.inj htext
  simp [hc] at hd

theorem isSign_of_comparison? {operator : Comparison}
    (h : comparison? (c :: s) = some (operator, rest)) : isSign c := by
  by_contra hc
  rw [comparison?_eq_none (by simpa using hc)] at h
  cases h

theorem read_of_isMark (hc : isMark c) : read c s = .ok (.mark c, s) := by
  rw [read, if_pos hc]

theorem read_of_comparison? {operator : Comparison}
    (h : comparison? (c :: s) = some (operator, rest)) :
    read c s = .ok (.comparison operator, rest) := by
  have hc := (of_isSign (isSign_of_comparison? h)).1
  rw [read, if_neg (by simp [hc]), h]

theorem read_of_isDigit (hc : c.isDigit) :
    read c s = match numeral? (c :: s.takeWhile isWordChar) with
      | some value => .ok (.number value, s.dropWhile isWordChar)
      | none =>
        Reader.stop (.invalidNumber (String.ofList (c :: s.takeWhile isWordChar))) (c :: s) := by
  have hno := of_isWordChar (isWordChar_iff_isDigit_or.2 (.inl hc))
  rw [read, if_neg (by simp [hno.1]), comparison?_eq_none hno.2]
  show (if c.isDigit then _ else _) = _
  exact if_pos hc

theorem read_of_isAlpha_or (hc : c.isAlpha ∨ c = '_') :
    read c s =
      .ok (.word (String.ofList (c :: s.takeWhile isWordChar)), s.dropWhile isWordChar) := by
  have hword := isWordChar_iff_isDigit_or.2 (.inr hc)
  have hno := of_isWordChar hword
  rw [read, if_neg (by simp [hno.1]), comparison?_eq_none hno.2]
  show (if c.isDigit then _ else _) = _
  rw [if_neg (by simp [not_isDigit_of_isAlpha_or hc]), if_pos hword]

/-- No token starts with any other character. -/
theorem read_ne_ok (hmark : isMark c = false) (hcomparison : comparison? (c :: s) = none)
    (hword : isWordChar c = false) : read c s ≠ .ok (token, rest) := by
  have hdigit : c.isDigit = false := by
    by_contra h
    simp [isWordChar_iff_isDigit_or.2 (.inl (by simpa using h))] at hword
  rw [read, if_neg (by simp [hmark]), hcomparison]
  show (if c.isDigit then _ else _) ≠ _
  rw [if_neg (by simp [hdigit]), if_neg (by simp [hword])]
  exact fun h => nomatch h

/-- A run of word characters, if it is the longest piece, is read up to its end. -/
theorem eq_of_isLongestPiece {piece : List Char} (hc : isWordChar c)
    (htext : c :: s = piece ++ rest) (h : IsLongestPiece piece (c :: s)) :
    piece = c :: s.takeWhile isWordChar ∧ rest = s.dropWhile isWordChar := by
  have hpiece := (isLongestPiece_of_isWordChar hc).1 h
  refine ⟨hpiece, ?_⟩
  rw [hpiece, List.cons_append] at htext
  have hs : s = s.takeWhile isWordChar ++ rest := (List.cons.inj htext).2
  conv_lhs at hs => rw [← List.takeWhile_append_dropWhile (p := isWordChar) (l := s)]
  exact (List.append_cancel_left hs).symm

/-- A word is read as what it spells. -/
theorem spells_of_read (hc : isWordChar c) (h : read c s = .ok (token, rest)) :
    Spells (c :: s.takeWhile isWordChar) token ∧ rest = s.dropWhile isWordChar := by
  rcases isWordChar_iff_isDigit_or.1 hc with hdigit | halpha
  · rw [read_of_isDigit hdigit] at h
    cases hvalue : numeral? (c :: s.takeWhile isWordChar) with
    | none =>
      rw [hvalue] at h
      exact nomatch h
    | some value =>
      rw [hvalue] at h
      obtain ⟨rfl, rfl⟩ := Prod.mk.inj (Except.ok.inj h)
      obtain ⟨n, hnumeral, hlt, rfl⟩ := numeral?_eq_some.1 hvalue
      exact ⟨.number hnumeral hlt, rfl⟩
  · rw [read_of_isAlpha_or halpha] at h
    obtain ⟨rfl, rfl⟩ := Prod.mk.inj (Except.ok.inj h)
    refine ⟨.word ⟨c, _, rfl, halpha, fun d hd => ?_⟩, rfl⟩
    exact isWordChar_iff.1 (List.mem_takeWhile_imp hd)

theorem exists_piece_of_read (h : read c s = .ok (token, rest)) :
    ∃ piece, c :: s = piece ++ rest ∧ IsLongestPiece piece (c :: s) ∧ Spells piece token := by
  by_cases hmark : isMark c
  · rw [read_of_isMark hmark] at h
    obtain ⟨rfl, rfl⟩ := Prod.mk.inj (Except.ok.inj h)
    exact ⟨[c], rfl, (isLongestPiece_of_isMark hmark).2 rfl, .mark hmark⟩
  · cases hcomparison : comparison? (c :: s) with
    | some found =>
      obtain ⟨operator, rest'⟩ := found
      rw [read_of_comparison? hcomparison] at h
      obtain ⟨rfl, rfl⟩ := Prod.mk.inj (Except.ok.inj h)
      have hlongest : IsLongestPiece operator.symbol.toList (c :: s) :=
        (isLongestPiece_of_isSign (isSign_of_comparison? hcomparison)).2
          ⟨operator, rest', hcomparison, rfl⟩
      exact ⟨_, (comparison?_eq_some.1 hcomparison).1, hlongest, .comparison operator⟩
    | none =>
      by_cases hword : isWordChar c
      · obtain ⟨hspells, rfl⟩ := spells_of_read hword h
        refine ⟨_, ?_, (isLongestPiece_of_isWordChar hword).2 rfl, hspells⟩
        rw [List.cons_append, List.takeWhile_append_dropWhile]
      · exact absurd h (read_ne_ok (by simpa using hmark) hcomparison (by simpa using hword))

theorem read_of_isLongestPiece {piece : List Char} (htext : c :: s = piece ++ rest)
    (hlongest : IsLongestPiece piece (c :: s)) (hspells : Spells piece token) :
    read c s = .ok (token, rest) := by
  cases hspells with
  | mark hc =>
    obtain ⟨rfl, rfl⟩ := List.cons.inj htext
    exact read_of_isMark hc
  | comparison operator =>
    obtain ⟨d, tail, heq, hd⟩ := exists_symbol_eq_cons operator
    have hhead := htext
    rw [heq] at hhead
    obtain ⟨rfl, -⟩ := List.cons.inj hhead
    obtain ⟨operator', rest', hcomparison, hsymbol⟩ := (isLongestPiece_of_isSign hd).1 hlongest
    obtain rfl := symbol_injective hsymbol
    obtain rfl : rest' = rest :=
      List.append_cancel_left ((comparison?_eq_some.1 hcomparison).1.symm.trans htext)
    exact read_of_comparison? hcomparison
  | word hword =>
    obtain ⟨d, tail, rfl, hd, -⟩ := hword
    obtain ⟨rfl, -⟩ := List.cons.inj htext
    obtain ⟨hpiece, hrest⟩ :=
      eq_of_isLongestPiece (isWordChar_iff_isDigit_or.2 (.inr hd)) htext hlongest
    rw [read_of_isAlpha_or hd, hpiece, hrest]
  | number hdigits hlt =>
    obtain ⟨d, tail, rfl, hd⟩ := hdigits.exists_eq_cons
    obtain ⟨rfl, -⟩ := List.cons.inj htext
    obtain ⟨hpiece, hrest⟩ :=
      eq_of_isLongestPiece (isWordChar_iff_isDigit_or.2 (.inl hd)) htext hlongest
    rw [read_of_isDigit hd, ← hpiece, numeral?_eq_some.2 ⟨_, hdigits, hlt, rfl⟩, hrest]

/-- Reading takes the longest piece off the text, as the token that it spells. -/
theorem read_eq_ok :
    read c s = .ok (token, rest) ↔
      ∃ piece, c :: s = piece ++ rest ∧ IsLongestPiece piece (c :: s) ∧ Spells piece token := by
  constructor
  · exact exists_piece_of_read
  · intro ⟨piece, htext, hlongest, hspells⟩
    exact read_of_isLongestPiece htext hlongest hspells

end read

/-! ## Scanning -/

theorem scan_nil (total : Nat) : scan total [] = .ok [] := by
  rw [scan]

theorem scan_of_isBlank {c : Char} (total : Nat) (s : List Char) (hc : Text.isBlank c) :
    scan total (c :: s) = scan total s := by
  rw [scan, if_pos hc]

theorem scan_of_not_isBlank {c : Char} (total : Nat) (s : List Char) (hc : ¬Text.isBlank c) :
    scan total (c :: s) =
      read c s >>= fun (token, rest) => scan total rest >>= fun lexemes =>
        pure (⟨total - (s.length + 1), token⟩ :: lexemes) := by
  rw [scan, if_neg hc]
  split
  next h => rw [h]; rfl
  next h => rw [h]; rfl

/-- Scanning gives the tokens of the division by longest match, and stops if there is none. -/
theorem exists_scan_eq_ok {total : Nat} {s : List Char} {tokens : List Token} :
    (∃ lexemes, scan total s = .ok lexemes ∧ lexemes.map Lexeme.token = tokens) ↔
      Splits s tokens := by
  constructor
  -- The scanner skips a blank or reads a token and goes on with the rest.
  · rintro ⟨lexemes, hscan, rfl⟩
    induction s using scan.induct generalizing lexemes with
    | case1 =>
      rw [scan_nil] at hscan
      obtain rfl := Except.ok.inj hscan
      exact .nil
    | case2 c s hc ih =>
      rw [scan_of_isBlank total s hc] at hscan
      exact .blank hc (ih _ hscan)
    | case3 c s hc stopped hread =>
      rw [scan_of_not_isBlank total s hc, hread] at hscan
      exact nomatch hscan
    | case4 c s hc token rest hread ih =>
      rw [scan_of_not_isBlank total s hc, bind_eq_ok] at hscan
      obtain ⟨⟨token', rest'⟩, hread', hnext⟩ := hscan
      obtain ⟨rfl, rfl⟩ := Prod.mk.inj (Except.ok.inj (hread.symm.trans hread'))
      obtain ⟨later, hlater, heq⟩ := bind_eq_ok.1 hnext
      obtain rfl := pure_eq_ok.1 heq
      obtain ⟨piece, htext, hlongest, hspells⟩ := read_eq_ok.1 hread
      rw [htext] at hlongest ⊢
      exact .piece hlongest hspells (ih _ hlater)
  -- A division has the same two kinds of steps.
  · intro h
    induction h with
    | nil => exact ⟨[], scan_nil total, rfl⟩
    | blank hc _ ih =>
      obtain ⟨lexemes, hscan, htokens⟩ := ih
      exact ⟨lexemes, by rw [scan_of_isBlank total _ hc, hscan], htokens⟩
    | @piece piece rest token tokens hpiece hspells _ ih =>
      obtain ⟨lexemes, hscan, rfl⟩ := ih
      obtain ⟨c, s, rfl⟩ := List.exists_cons_of_ne_nil hpiece.isPiece.ne_nil
      have hread : read c (s ++ rest) = .ok (token, rest) :=
        read_eq_ok.2 ⟨c :: s, rfl, hpiece, hspells⟩
      refine ⟨⟨total - ((s ++ rest).length + 1), token⟩ :: lexemes, ?_, rfl⟩
      rw [List.cons_append, scan_of_not_isBlank total _ hpiece.isPiece.not_isBlank, hread]
      show scan total rest >>= _ = _
      rw [hscan]
      rfl

end Condition.Token

end IsaCodec
