import IsaCodec.Condition.Token
import IsaCodec.Proofs.Text.Numeral
import Mathlib.Data.List.TakeWhile

/-! # Pieces of a condition's text

    A text is divided into pieces with blanks between them, and every piece
    spells a token.  The division is by longest match: a piece goes on for as
    long as it can, so that `<=` is one comparison and `12and` is one word,
    which starts with a digit and is no number.

    * **`Spells`** — the tokens and their spellings.
    * **`Splits`** — the division of a text.
    * **`IsLongestPiece.unique`** — the text leaves no choice of the next piece,
      and the lemmas after it say which piece that is.
    * **`Splits.mark_cons`**, **`Splits.symbol_append`**, **`Splits.run_append`**
      — what may stand in front of a text without changing its division. -/

namespace IsaCodec

namespace Condition.Token

open Text (IsNumeralIn)

/-! ## Spellings -/

/-- A number in decimal, or in hexadecimal or binary after a sign of the base. -/
inductive IsNumeral : List Char → Nat → Prop where
  | decimal {digits : List Char} {n : Nat} (h : IsNumeralIn 10 digits n) : IsNumeral digits n
  | hexadecimal {sign : Char} {digits : List Char} {n : Nat} (hsign : sign = 'x' ∨ sign = 'X')
      (h : IsNumeralIn 16 digits n) : IsNumeral ('0' :: sign :: digits) n
  | binary {sign : Char} {digits : List Char} {n : Nat} (hsign : sign = 'b' ∨ sign = 'B')
      (h : IsNumeralIn 2 digits n) : IsNumeral ('0' :: sign :: digits) n

/-- A letter or an underscore, and then letters, digits and underscores. -/
def IsIdentifier (word : List Char) : Prop :=
  ∃ c rest, word = c :: rest ∧ (c.isAlpha ∨ c = '_') ∧ ∀ d ∈ rest, d.isAlphanum ∨ d = '_'

/-- The spellings of a token. -/
inductive Spells : List Char → Token → Prop where
  | mark {c : Char} (hc : isMark c) : Spells [c] (.mark c)
  | comparison (operator : Comparison) : Spells operator.symbol.toList (.comparison operator)
  | word {word : List Char} (hword : IsIdentifier word) : Spells word (.word (String.ofList word))
  | number {digits : List Char} {n : Nat} (hdigits : IsNumeral digits n) (hn : n < 2 ^ 64) :
      Spells digits (.number (BitVec.ofNat 64 n))

/-! ## Division of a text -/

/-- What can stand between blanks as one piece.  A run of word characters is a piece whether or
    not it spells a token. -/
inductive IsPiece : List Char → Prop where
  | mark {c : Char} (hc : isMark c) : IsPiece [c]
  | comparison (operator : Comparison) : IsPiece operator.symbol.toList
  | word {c : Char} {rest : List Char} (hc : isWordChar c) (hrest : ∀ d ∈ rest, isWordChar d) :
      IsPiece (c :: rest)

/-- The longest piece at the front of a text. -/
structure IsLongestPiece (piece text : List Char) : Prop where
  isPiece : IsPiece piece
  isPrefix : piece <+: text
  longest : ∀ other, IsPiece other → other <+: text → other.length ≤ piece.length

/-- A text is divided into pieces by longest match, with blanks skipped, and each piece spells a
    token. -/
inductive Splits : List Char → List Token → Prop where
  | nil : Splits [] []
  | blank {c : Char} {s : List Char} {tokens : List Token} (hc : Text.isBlank c)
      (h : Splits s tokens) : Splits (c :: s) tokens
  | piece {piece rest : List Char} {token : Token} {tokens : List Token}
      (hpiece : IsLongestPiece piece (piece ++ rest)) (hspells : Spells piece token)
      (h : Splits rest tokens) : Splits (piece ++ rest) (token :: tokens)

/-! ## Classes of characters -/

/-- The first character of a comparison sign. -/
def isSign (c : Char) : Bool :=
  c == '=' || c == '!' || c == '<' || c == '>'

section classes

variable {c : Char}

theorem of_isBlank (h : Text.isBlank c) :
    isMark c = false ∧ isSign c = false ∧ isWordChar c = false := by
  simp only [Text.isBlank, Bool.or_eq_true, beq_iff_eq] at h
  rcases h with (((rfl | rfl) | rfl) | rfl) | rfl <;> decide

theorem of_isMark (h : isMark c) : isSign c = false ∧ isWordChar c = false := by
  simp only [isMark, Bool.or_eq_true, beq_iff_eq] at h
  rcases h with ((((rfl | rfl) | rfl) | rfl) | rfl) | rfl <;> decide

theorem of_isSign (h : isSign c) : isMark c = false ∧ isWordChar c = false := by
  simp only [isSign, Bool.or_eq_true, beq_iff_eq] at h
  rcases h with ((rfl | rfl) | rfl) | rfl <;> decide

theorem of_isWordChar (hc : isWordChar c) : isMark c = false ∧ isSign c = false := by
  constructor
  · by_contra hmark
    simp [(of_isMark (by simpa using hmark)).2] at hc
  · by_contra hsign
    simp [(of_isSign (by simpa using hsign)).2] at hc

theorem isWordChar_iff : isWordChar c ↔ c.isAlphanum ∨ c = '_' := by
  rw [isWordChar, Bool.or_eq_true, beq_iff_eq]

/-- A word starts with a digit or as an identifier does. -/
theorem isWordChar_iff_isDigit_or : isWordChar c ↔ c.isDigit ∨ c.isAlpha ∨ c = '_' := by
  rw [isWordChar_iff, Char.isAlphanum, Bool.or_eq_true]
  grind

theorem IsIdentifier.ne_nil {word : List Char} (h : IsIdentifier word) : word ≠ [] := by
  obtain ⟨first, rest, rfl, -⟩ := h
  exact List.cons_ne_nil first rest

theorem IsIdentifier.isWordChar {word : List Char} (h : IsIdentifier word) :
    ∀ c ∈ word, isWordChar c := by
  obtain ⟨first, rest, rfl, hfirst, hrest⟩ := h
  exact List.forall_mem_cons.2 ⟨isWordChar_iff_isDigit_or.2 (.inr hfirst),
    fun c hc => isWordChar_iff.2 (hrest c hc)⟩

theorem toNat_of_isAlpha (h : c.isAlpha) : 'A'.toNat ≤ c.toNat ∧ c.toNat ≤ 'z'.toNat := by
  rcases Bool.or_eq_true_iff.1 h with hupper | hlower
  · obtain ⟨hlow, hhigh⟩ := of_decide_eq_true hupper
    have hle : c.toNat ≤ 'Z'.toNat := hhigh
    exact ⟨hlow, Nat.le_trans hle (by decide)⟩
  · obtain ⟨hlow, hhigh⟩ := Bool.and_eq_true_iff.1 hlower
    have hle : 'a'.toNat ≤ c.toNat := of_decide_eq_true hlow
    exact ⟨Nat.le_trans (by decide) hle, of_decide_eq_true hhigh⟩

theorem not_isDigit_of_isAlpha_or (h : c.isAlpha ∨ c = '_') : c.isDigit = false := by
  rcases h with halpha | rfl
  · -- The digits come before the letters.
    rw [Bool.eq_false_iff]
    intro hdigit
    have hle : c.toNat ≤ '9'.toNat := of_decide_eq_true (Bool.and_eq_true_iff.1 hdigit).2
    exact absurd (Nat.le_trans (toNat_of_isAlpha halpha).1 hle) (by decide)
  · decide

end classes

/-! ## Comparison signs -/

theorem length_symbol (operator : Comparison) :
    operator.symbol.toList.length = 1 ∨ operator.symbol.toList.length = 2 := by
  cases operator <;> decide

theorem exists_symbol_eq_cons (operator : Comparison) :
    ∃ c rest, operator.symbol.toList = c :: rest ∧ isSign c := by
  cases operator <;> exact ⟨_, _, rfl, by decide⟩

/-- The second character of a sign of two. -/
theorem exists_symbol_eq_of_length {operator : Comparison}
    (h : operator.symbol.toList.length = 2) : ∃ c, operator.symbol.toList = [c, '='] := by
  cases operator
  case lt | gt => exact absurd h (by decide)
  all_goals exact ⟨_, rfl⟩

/-- A sign of one character goes on with an equality sign. -/
theorem exists_symbol_eq_append {operator : Comparison}
    (h : operator.symbol.toList.length = 1) :
    ∃ operator' : Comparison, operator'.symbol.toList = operator.symbol.toList ++ ['='] := by
  cases operator
  case lt => exact ⟨.le, rfl⟩
  case gt => exact ⟨.ge, rfl⟩
  all_goals exact absurd h (by decide)

theorem symbol_injective {operator operator' : Comparison}
    (h : operator.symbol.toList = operator'.symbol.toList) : operator = operator' := by
  revert h
  cases operator <;> cases operator' <;> decide

/-- A sign of one character ends where it cannot be one of two. -/
theorem comparison?_eq_some {text rest : List Char} {operator : Comparison} :
    comparison? text = some (operator, rest) ↔
      text = operator.symbol.toList ++ rest ∧
        (operator.symbol.toList.length = 1 → rest.head? ≠ some '=') := by
  constructor
  · intro h
    unfold comparison? at h
    split at h
    case h_5 hnot | h_6 hnot =>
      obtain ⟨rfl, rfl⟩ := Prod.mk.inj (Option.some.inj h)
      refine ⟨rfl, fun _ hhead => ?_⟩
      obtain ⟨rest', rfl⟩ := List.head?_eq_some_iff.1 hhead
      exact hnot _ rfl
    case h_7 => cases h
    all_goals
      obtain ⟨rfl, rfl⟩ := Prod.mk.inj (Option.some.inj h)
      exact ⟨rfl, fun hlength => absurd hlength (by decide)⟩
  · rintro ⟨rfl, hhead⟩
    cases operator
    case lt =>
      show comparison? ('<' :: rest) = some (.lt, rest)
      have hne : rest.head? ≠ some '=' := hhead rfl
      unfold comparison?
      split <;> simp_all
    case gt =>
      show comparison? ('>' :: rest) = some (.gt, rest)
      have hne : rest.head? ≠ some '=' := hhead rfl
      unfold comparison?
      split <;> simp_all
    all_goals rfl

/-! ## The longest piece -/

section front

variable {c : Char} {s piece : List Char}

theorem IsPiece.ne_nil (h : IsPiece piece) : piece ≠ [] := by
  cases h with
  | mark | word => exact List.cons_ne_nil _ _
  | comparison operator =>
    obtain ⟨c, rest, heq, -⟩ := exists_symbol_eq_cons operator
    rw [heq]
    exact List.cons_ne_nil _ _

/-- The first character of a piece tells what kind of piece it is. -/
theorem IsPiece.cons_cases (h : IsPiece (c :: s)) :
    (isMark c ∧ s = []) ∨
      (isSign c ∧ ∃ operator : Comparison, c :: s = operator.symbol.toList) ∨
      (isWordChar c ∧ ∀ d ∈ s, isWordChar d) := by
  generalize hs : c :: s = piece at h
  cases h with
  | mark hc =>
    obtain ⟨rfl, rfl⟩ := List.cons.inj hs
    exact .inl ⟨hc, rfl⟩
  | comparison operator =>
    obtain ⟨d, rest, heq, hd⟩ := exists_symbol_eq_cons operator
    obtain ⟨rfl, -⟩ := List.cons.inj (hs.trans heq)
    exact .inr (.inl ⟨hd, operator, rfl⟩)
  | word hc hrest =>
    obtain ⟨rfl, rfl⟩ := List.cons.inj hs
    exact .inr (.inr ⟨hc, hrest⟩)

theorem IsPiece.not_isBlank (h : IsPiece (c :: s)) : ¬Text.isBlank c := by
  intro hblank
  have hno := of_isBlank hblank
  rcases h.cons_cases with ⟨hmark, -⟩ | ⟨hsign, -⟩ | ⟨hword, -⟩
  · simp [hno.1] at hmark
  · simp [hno.2.1] at hsign
  · simp [hno.2.2] at hword

theorem IsPiece.eq_nil_of_isMark (hc : isMark c) (h : IsPiece (c :: s)) : s = [] := by
  have hno := of_isMark hc
  rcases h.cons_cases with ⟨-, hs⟩ | ⟨hsign, -⟩ | ⟨hword, -⟩
  · exact hs
  · simp [hno.1] at hsign
  · simp [hno.2] at hword

theorem IsPiece.exists_symbol_of_isSign (hc : isSign c) (h : IsPiece (c :: s)) :
    ∃ operator : Comparison, c :: s = operator.symbol.toList := by
  have hno := of_isSign hc
  rcases h.cons_cases with ⟨hmark, -⟩ | ⟨-, hs⟩ | ⟨hword, -⟩
  · simp [hno.1] at hmark
  · exact hs
  · simp [hno.2] at hword

theorem IsPiece.forall_of_isWordChar (hc : isWordChar c) (h : IsPiece (c :: s)) :
    ∀ d ∈ s, isWordChar d := by
  have hno := of_isWordChar hc
  rcases h.cons_cases with ⟨hmark, -⟩ | ⟨hsign, -⟩ | ⟨-, hs⟩
  · simp [hno.1] at hmark
  · simp [hno.2] at hsign
  · exact hs

/-- A piece at the front starts with the first character. -/
theorem IsPiece.exists_of_prefix (h : IsPiece piece) (hfront : piece <+: c :: s) :
    ∃ rest, piece = c :: rest ∧ rest <+: s := by
  obtain ⟨d, rest, rfl⟩ := List.exists_cons_of_ne_nil h.ne_nil
  obtain ⟨rfl, hrest⟩ := List.cons_prefix_cons.1 hfront
  exact ⟨rest, rfl, hrest⟩

theorem IsLongestPiece.unique {piece' : List Char} (h : IsLongestPiece piece s)
    (h' : IsLongestPiece piece' s) : piece = piece' := by
  have hle : piece.length ≤ piece'.length := h'.longest piece h.isPiece h.isPrefix
  have hge : piece'.length ≤ piece.length := h.longest piece' h'.isPiece h'.isPrefix
  have hfront : piece <+: piece' := List.prefix_of_prefix_length_le h.isPrefix h'.isPrefix hle
  exact hfront.eq_of_length (Nat.le_antisymm hle hge)

theorem isLongestPiece_of_isMark (hc : isMark c) :
    IsLongestPiece piece (c :: s) ↔ piece = [c] := by
  have hmark : IsLongestPiece [c] (c :: s) := by
    refine ⟨.mark hc, ⟨s, rfl⟩, fun other hother hfront => ?_⟩
    obtain ⟨rest, rfl, -⟩ := hother.exists_of_prefix hfront
    rw [hother.eq_nil_of_isMark hc]
  constructor
  · intro h
    exact h.unique hmark
  · rintro rfl
    exact hmark

/-- A run of word characters is the longest piece where it starts. -/
theorem isLongestPiece_of_isWordChar (hc : isWordChar c) :
    IsLongestPiece piece (c :: s) ↔ piece = c :: s.takeWhile isWordChar := by
  have hword : IsLongestPiece (c :: s.takeWhile isWordChar) (c :: s) := by
    refine ⟨.word hc fun d hd => List.mem_takeWhile_imp hd,
      List.cons_prefix_cons.2 ⟨rfl, List.takeWhile_prefix _⟩, fun other hother hfront => ?_⟩
    obtain ⟨rest, rfl, after, rfl⟩ := hother.exists_of_prefix hfront
    have hrest : ∀ d ∈ rest, isWordChar d := hother.forall_of_isWordChar hc
    rw [List.takeWhile_append_of_pos hrest]
    simp
  constructor
  · intro h
    exact h.unique hword
  · rintro rfl
    exact hword

theorem isLongestPiece_of_isSign (hc : isSign c) :
    IsLongestPiece piece (c :: s) ↔
      ∃ operator rest, comparison? (c :: s) = some (operator, rest) ∧
        piece = operator.symbol.toList := by
  constructor
  · intro h
    obtain ⟨tail, rfl, -⟩ := h.isPiece.exists_of_prefix h.isPrefix
    obtain ⟨operator, hoperator⟩ := h.isPiece.exists_symbol_of_isSign hc
    obtain ⟨rest, hrest⟩ := h.isPrefix
    rw [hoperator] at hrest h
    refine ⟨operator, rest, comparison?_eq_some.2 ⟨hrest.symm, fun hlength hhead => ?_⟩, hoperator⟩
    -- The sign and the equality sign after it would be a longer piece.
    obtain ⟨operator', hoperator'⟩ := exists_symbol_eq_append hlength
    obtain ⟨rest', rfl⟩ := List.head?_eq_some_iff.1 hhead
    have hlonger : operator'.symbol.toList <+: c :: s :=
      ⟨rest', by rw [← hrest, hoperator']; simp⟩
    have hle := h.longest _ (.comparison operator') hlonger
    rw [hoperator', List.length_append, List.length_singleton] at hle
    omega
  · rintro ⟨operator, rest, hcomparison, rfl⟩
    obtain ⟨htext, hhead⟩ := comparison?_eq_some.1 hcomparison
    refine ⟨.comparison operator, ⟨rest, htext.symm⟩, fun other hother hfront => ?_⟩
    obtain ⟨tail, rfl, -⟩ := hother.exists_of_prefix hfront
    obtain ⟨operator', hoperator'⟩ := hother.exists_symbol_of_isSign hc
    rw [hoperator'] at hfront ⊢
    -- Only a sign of two characters is longer than a sign of one, and it goes on with `=`.
    rcases length_symbol operator with hone | htwo
    · rcases length_symbol operator' with hone' | htwo'
      · omega
      · obtain ⟨d, hd⟩ := exists_symbol_eq_of_length htwo'
        obtain ⟨e, he⟩ := List.length_eq_one_iff.1 hone
        rw [htext, hd, he] at hfront
        obtain ⟨-, after, hafter⟩ := List.cons_prefix_cons.1 hfront
        have hrest : rest = '=' :: after := hafter.symm
        exact absurd (by rw [hrest]; rfl) (hhead hone)
    · have := length_symbol operator'
      omega

end front

/-! ## Pieces in front of a divided text -/

/-- A word in front of the text ends there. -/
def EndsWord (s : List Char) : Prop :=
  s.takeWhile isWordChar = []

theorem endsWord_cons {c : Char} {s : List Char} (hc : isWordChar c = false) :
    EndsWord (c :: s) := by
  rw [EndsWord, List.takeWhile_cons_of_neg (by simp [hc])]

namespace Splits

variable {s : List Char} {tokens : List Token}

theorem mark_cons {c : Char} (hc : isMark c) (h : Splits s tokens) :
    Splits (c :: s) (.mark c :: tokens) := by
  have hlongest : IsLongestPiece [c] ([c] ++ s) := (isLongestPiece_of_isMark hc).2 rfl
  exact .piece hlongest (.mark hc) h

theorem symbol_append (operator : Comparison) (hends : s.head? ≠ some '=') (h : Splits s tokens) :
    Splits (operator.symbol.toList ++ s) (.comparison operator :: tokens) := by
  have hcomparison : comparison? (operator.symbol.toList ++ s) = some (operator, s) :=
    comparison?_eq_some.2 ⟨rfl, fun _ => hends⟩
  have hlongest :
      IsLongestPiece operator.symbol.toList (operator.symbol.toList ++ s) := by
    obtain ⟨c, rest, heq, hc⟩ := exists_symbol_eq_cons operator
    rw [heq] at hcomparison ⊢
    exact (isLongestPiece_of_isSign hc).2 ⟨operator, s, hcomparison, heq.symm⟩
  exact .piece hlongest (.comparison operator) h

/-- A run of word characters that spells a token. -/
theorem run_append {run : List Char} {token : Token} (hne : run ≠ [])
    (hrun : ∀ c ∈ run, isWordChar c) (hspells : Spells run token) (hends : EndsWord s)
    (h : Splits s tokens) : Splits (run ++ s) (token :: tokens) := by
  obtain ⟨c, rest, rfl⟩ := List.exists_cons_of_ne_nil hne
  have htake : (rest ++ s).takeWhile isWordChar = rest := by
    have hs : s.takeWhile isWordChar = [] := hends
    rw [List.takeWhile_append_of_pos fun d hd => hrun d (List.mem_cons_of_mem c hd), hs,
      List.append_nil]
  have hlongest : IsLongestPiece (c :: rest) (c :: rest ++ s) :=
    (isLongestPiece_of_isWordChar (hrun c List.mem_cons_self)).2 (congrArg (c :: ·) htake.symm)
  exact .piece hlongest hspells h

theorem word_append {word : String} (hword : IsIdentifier word.toList) (hends : EndsWord s)
    (h : Splits s tokens) : Splits (word.toList ++ s) (.word word :: tokens) := by
  have hspells : Spells word.toList (.word word) := by
    have := Spells.word hword
    rwa [String.ofList_toList] at this
  exact run_append hword.ne_nil hword.isWordChar hspells hends h

theorem decimal_append {n : Nat} (hn : n < 2 ^ 64) (hends : EndsWord s) (h : Splits s tokens) :
    Splits (Text.decimal n ++ s) (.number (BitVec.ofNat 64 n) :: tokens) := by
  have hnumeral := Text.isNumeralIn_decimal n
  refine run_append hnumeral.1 (fun c hc => ?_) (.number (.decimal hnumeral) hn) hends h
  exact isWordChar_iff_isDigit_or.2 (.inl (hnumeral.isDigit_of_mem c hc))

/-- Words of a divided text are identifiers. -/
theorem isIdentifier_of_mem (h : Splits s tokens) {word : String} (hword : .word word ∈ tokens) :
    IsIdentifier word.toList := by
  induction h with
  | nil => cases hword
  | blank _ _ ih => exact ih hword
  | piece _ hspells _ ih =>
    rcases List.mem_cons.1 hword with rfl | hword
    · generalize htoken : Token.word word = token at hspells
      cases hspells with
      | word h =>
        obtain rfl := Token.word.inj htoken
        rwa [String.toList_ofList]
      | mark | comparison | number => cases htoken
    · exact ih hword

end Splits

end Condition.Token

end IsaCodec
