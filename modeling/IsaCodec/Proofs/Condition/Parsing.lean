import IsaCodec.Instruction.Compile
import IsaCodec.Proofs.Condition.Grammar
import IsaCodec.Proofs.Condition.Scanning

/-! # Agreement of the parser with the grammar

    Every reader of the parser is sound and complete for the rule of the same
    name.  Completeness needs to know what comes next: a name goes on if an
    opening parenthesis or bracket follows, and a chain goes on with its
    keyword.

    * **`isSound_nested`, `isComplete_nested`** — both halves for conditions,
      by induction on how deep parentheses are nested.
    * **`parse_eq_ok`** — the same for whole texts.
    * **`parseCondition_iff_describes`** — what an instruction accepts as a
      condition, and that the text leaves no choice. -/

namespace IsaCodec

namespace Condition

namespace Parser

open Reader (separated IsSound IsComplete isSound_separated isComplete_separated)

variable {name : String} {tokens rest : List Token}

/-! ## Single tokens -/

theorem isName_iff : IsName name ↔ ¬isKeyword name := by
  simp [IsName, keywords, isKeyword, and_assoc]

theorem eat?_eq_some {token : Token} :
    eat? token tokens = some rest ↔ tokens = token :: rest := by
  rcases tokens with _ | ⟨next, later⟩
  · exact ⟨(fun h => nomatch h), (fun h => nomatch h)⟩
  · rw [eat?, List.cons.injEq]
    by_cases h : next = token
    · rw [if_pos h, Option.some.injEq, and_iff_right h]
    · rw [if_neg h]
      exact ⟨(fun h => nomatch h), (fun heq => absurd heq.1 h)⟩

theorem expect_eq_ok {c : Char} : expect c tokens = .ok rest ↔ tokens = .mark c :: rest := by
  rw [← eat?_eq_some, expect]
  cases eat? (.mark c) tokens with
  | none => exact ⟨(fun h => nomatch h), (fun h => nomatch h)⟩
  | some later => simp

theorem number_eq_ok {value : Code} :
    number tokens = .ok (value, rest) ↔ tokens = .number value :: rest := by
  constructor
  · intro h
    unfold number at h
    split at h
    · obtain ⟨rfl, rfl⟩ := Prod.mk.inj (Except.ok.inj h)
      rfl
    · exact nomatch h
  · rintro rfl
    rfl

theorem isSound_number : IsSound number IsNumber := by
  intro input value rest h
  exact ⟨[.number value], number_eq_ok.1 h, rfl⟩

theorem isComplete_number : IsComplete number IsNumber (fun _ => True) := by
  rintro s value rest rfl -
  exact number_eq_ok.2 rfl

/-! ## Lists -/

section lists

variable {α : Type} {item : Reader Fault Token α} {isItem : List Token → α → Prop}
  {ends : List Token → Prop} {token : Token}

theorem isSound_separatedBy (hitem : IsSound item isItem) :
    IsSound (separated item (eat? token)) (Separated (· = [token]) isItem) := by
  refine isSound_separated hitem ?_
  intro input rest h
  exact ⟨[token], eat?_eq_some.1 h, rfl⟩

theorem isComplete_separatedBy (hitem : IsComplete item isItem ends)
    (hends : ∀ rest, ends (token :: rest)) :
    IsComplete (separated item (eat? token)) (Separated (· = [token]) isItem)
      (fun rest => ends rest ∧ eat? token rest = none) := by
  refine isComplete_separated hitem ?_ ?_ ?_
  · rintro t rfl
    exact List.cons_ne_nil _ _
  · rintro t rest rfl
    exact eat?_eq_some.2 rfl
  · rintro t rest rfl
    exact hends rest

end lists

/-! ## Operands -/

/-- What comes next does not belong to a name in front of it. -/
def EndsOperand (rest : List Token) : Prop :=
  (∀ later, rest ≠ .mark '(' :: later) ∧ ∀ later, rest ≠ .mark '[' :: later

theorem endsOperand_nil : EndsOperand [] :=
  ⟨(fun _ h => nomatch h), (fun _ h => nomatch h)⟩

theorem endsOperand_cons {token : Token} (hparenthesis : token ≠ .mark '(')
    (hbracket : token ≠ .mark '[') : EndsOperand (token :: rest) :=
  ⟨fun _ h => hparenthesis (List.cons.inj h).1, fun _ h => hbracket (List.cons.inj h).1⟩

theorem operand_ne_ok (hname : ¬IsName name) {x : Operand × List Token} :
    operand (.word name :: tokens) ≠ .ok x := by
  have hkeyword : isKeyword name := by simpa [isName_iff] using hname
  rw [operand.eq_def]
  simp only [if_pos hkeyword]
  exact fun h => nomatch h

theorem operand_call (hname : IsName name) :
    operand (.word name :: .mark '(' :: tokens) =
      operand tokens >>= fun (argument, rest) => expect ')' rest >>= fun rest =>
        pure (.call name argument, rest) := by
  rw [operand, if_neg (isName_iff.1 hname)]

theorem operand_element (hname : IsName name) :
    operand (.word name :: .mark '[' :: tokens) =
      number tokens >>= fun (index, rest) =>
        if index.toNat < 1 <<< 32 then
          expect ']' rest >>= fun rest => pure (.field name (some index.toNat), rest)
        else Reader.stop .indexTooBig rest := by
  rw [operand, if_neg (isName_iff.1 hname)]

theorem operand_field (hname : IsName name) (hends : EndsOperand rest) :
    operand (.word name :: rest) = .ok (.field name none, rest) := by
  rw [operand.eq_4 name rest hends.1 hends.2, if_neg (isName_iff.1 hname)]

theorem isSound_operand : IsSound operand IsOperand := by
  intro input x rest h
  induction input using operand.induct generalizing x rest with
  | case1 value tail =>
    rw [operand] at h
    obtain ⟨rfl, rfl⟩ := Prod.mk.inj (Except.ok.inj h)
    exact ⟨[.number value], rfl, .immediate value⟩
  | case2 name tail hkeyword =>
    have hname : ¬IsName name := fun hname => isName_iff.1 hname hkeyword
    exact absurd h (operand_ne_ok hname)
  | case3 name hkeyword tail ih =>
    have hname := isName_iff.2 hkeyword
    rw [operand_call hname, bind_eq_ok] at h
    obtain ⟨⟨argument, later⟩, hargument, hnext⟩ := h
    obtain ⟨s, rfl, hs⟩ := ih hargument
    obtain ⟨later', hlater, heq⟩ := bind_eq_ok.1 hnext
    obtain ⟨rfl, rfl⟩ := Prod.mk.inj (pure_eq_ok.1 heq)
    obtain rfl := expect_eq_ok.1 hlater
    exact ⟨.word name :: .mark '(' :: (s ++ [.mark ')']), by simp, .call hname hs⟩
  | case4 name hkeyword tail =>
    have hname := isName_iff.2 hkeyword
    rw [operand_element hname, bind_eq_ok] at h
    obtain ⟨⟨index, later⟩, hindex, hnext⟩ := h
    obtain rfl := number_eq_ok.1 hindex
    dsimp only at hnext
    split at hnext
    · next hlt =>
      obtain ⟨later', hlater, heq⟩ := bind_eq_ok.1 hnext
      obtain ⟨rfl, rfl⟩ := Prod.mk.inj (pure_eq_ok.1 heq)
      obtain rfl := expect_eq_ok.1 hlater
      exact ⟨[.word name, .mark '[', .number index, .mark ']'], rfl, .element hname hlt⟩
    · exact nomatch hnext
  | case5 name hkeyword tail hparenthesis hbracket =>
    have hname := isName_iff.2 hkeyword
    have hends : EndsOperand tail := ⟨hparenthesis, hbracket⟩
    rw [operand_field hname hends] at h
    obtain ⟨rfl, rfl⟩ := Prod.mk.inj (Except.ok.inj h)
    exact ⟨[.word name], rfl, .field hname⟩
  | case6 tail hnumber hword =>
    rw [operand.eq_5 tail hnumber hword] at h
    exact nomatch h

theorem isComplete_operand : IsComplete operand IsOperand EndsOperand := by
  intro s x rest h hends
  induction h generalizing rest with
  | immediate value => rfl
  | field hname => exact operand_field hname hends
  | @element name index hname hindex =>
    show operand (.word name :: .mark '[' :: .number index :: .mark ']' :: rest) = _
    have hlt : index.toNat < 1 <<< 32 := hindex
    rw [operand_element hname]
    refine bind_eq_ok.2 ⟨_, number_eq_ok.2 rfl, ?_⟩
    dsimp only
    rw [if_pos hlt]
    exact bind_eq_ok.2 ⟨_, expect_eq_ok.2 rfl, rfl⟩
  | @call name s argument hname _ ih =>
    have hs : operand (s ++ .mark ')' :: rest) = .ok (argument, .mark ')' :: rest) :=
      ih (endsOperand_cons (by decide) (by decide))
    show operand (.word name :: .mark '(' :: (s ++ [.mark ')'] ++ rest)) = _
    rw [operand_call hname, List.append_assoc, List.singleton_append]
    exact bind_eq_ok.2 ⟨_, hs, bind_eq_ok.2 ⟨_, expect_eq_ok.2 rfl, rfl⟩⟩

/-! ## Comparisons -/

section comparison

variable {subject : Operand}

theorem comparison_compare {operator : Comparison}
    (h : operand tokens = .ok (subject, .comparison operator :: rest)) :
    comparison tokens =
      operand rest >>= fun (object, rest) => pure (.compare subject operator object, rest) := by
  rw [comparison, h]
  rfl

theorem comparison_inSet (h : operand tokens = .ok (subject, .word "in" :: rest)) :
    comparison tokens =
      expect '[' rest >>= fun rest => separated number (eat? (.mark ',')) rest >>=
        fun (values, rest) => expect ']' rest >>= fun rest =>
          pure (.inSet subject values, rest) := by
  rw [comparison, h]
  rfl

theorem comparison_inRange (h : operand tokens = .ok (subject, .word "in_range" :: rest)) :
    comparison tokens =
      number rest >>= fun (first, rest) => expect '-' rest >>= fun rest => number rest >>=
        fun (last, rest) => pure (.inRange subject first last, rest) := by
  rw [comparison, h]
  rfl

end comparison

theorem isSound_comparison : IsSound comparison IsComparison := by
  intro input c rest h
  unfold comparison at h
  obtain ⟨⟨subject, later⟩, hsubject, hnext⟩ := bind_eq_ok.1 h
  obtain ⟨s, rfl, hs⟩ := isSound_operand hsubject
  dsimp only at hnext
  split at hnext
  · next tail =>
    obtain ⟨later₁, hopen, hnext⟩ := bind_eq_ok.1 hnext
    obtain ⟨⟨values, later₂⟩, hvalues, hnext⟩ := bind_eq_ok.1 hnext
    obtain ⟨later₃, hclose, heq⟩ := bind_eq_ok.1 hnext
    obtain ⟨rfl, rfl⟩ := Prod.mk.inj (pure_eq_ok.1 heq)
    obtain rfl := expect_eq_ok.1 hopen
    obtain ⟨t, rfl, ht⟩ := isSound_separatedBy isSound_number hvalues
    obtain rfl := expect_eq_ok.1 hclose
    exact ⟨s ++ .word "in" :: .mark '[' :: (t ++ [.mark ']']), by simp, .inSet hs ht⟩
  · next tail =>
    obtain ⟨⟨first, later₁⟩, hfirst, hnext⟩ := bind_eq_ok.1 hnext
    obtain ⟨later₂, hminus, hnext⟩ := bind_eq_ok.1 hnext
    obtain ⟨⟨last, later₃⟩, hlast, heq⟩ := bind_eq_ok.1 hnext
    obtain ⟨rfl, rfl⟩ := Prod.mk.inj (pure_eq_ok.1 heq)
    obtain rfl := number_eq_ok.1 hfirst
    obtain rfl := expect_eq_ok.1 hminus
    obtain rfl := number_eq_ok.1 hlast
    exact ⟨_, by simp, .inRange first last hs⟩
  · next operator tail =>
    obtain ⟨⟨object, later₁⟩, hobject, heq⟩ := bind_eq_ok.1 hnext
    obtain ⟨rfl, rfl⟩ := Prod.mk.inj (pure_eq_ok.1 heq)
    obtain ⟨t, rfl, ht⟩ := isSound_operand hobject
    exact ⟨s ++ .comparison operator :: t, by simp, .compare operator hs ht⟩
  · exact nomatch hnext

theorem isComplete_comparison : IsComplete comparison IsComparison EndsOperand := by
  intro input c rest h hends
  cases h with
  | @compare s t subject object operator hs ht =>
    have hsubject : operand (s ++ .comparison operator :: t ++ rest) =
        .ok (subject, .comparison operator :: (t ++ rest)) := by
      rw [List.append_assoc, List.cons_append]
      exact isComplete_operand hs (endsOperand_cons (by simp) (by simp))
    rw [comparison_compare hsubject]
    exact bind_eq_ok.2 ⟨_, isComplete_operand ht hends, rfl⟩
  | @inSet s t subject values hs ht =>
    have hsubject : operand (s ++ .word "in" :: .mark '[' :: (t ++ [.mark ']']) ++ rest) =
        .ok (subject, .word "in" :: .mark '[' :: (t ++ .mark ']' :: rest)) := by
      simp only [List.append_assoc, List.cons_append, List.nil_append]
      exact isComplete_operand hs (endsOperand_cons (by simp) (by simp))
    have hvalues : separated number (eat? (.mark ',')) (t ++ .mark ']' :: rest) =
        .ok (values, .mark ']' :: rest) :=
      isComplete_separatedBy isComplete_number (fun _ => trivial) ht ⟨trivial, rfl⟩
    rw [comparison_inSet hsubject]
    exact bind_eq_ok.2 ⟨_, expect_eq_ok.2 rfl, bind_eq_ok.2 ⟨_, hvalues,
      bind_eq_ok.2 ⟨_, expect_eq_ok.2 rfl, rfl⟩⟩⟩
  | @inRange s subject first last hs =>
    have hsubject : operand
        (s ++ [.word "in_range", .number first, .mark '-', .number last] ++ rest) =
        .ok (subject, .word "in_range" :: .number first :: .mark '-' :: .number last :: rest) := by
      rw [List.append_assoc]
      exact isComplete_operand hs (endsOperand_cons (by simp) (by simp))
    rw [comparison_inRange hsubject]
    exact bind_eq_ok.2 ⟨_, number_eq_ok.2 rfl, bind_eq_ok.2 ⟨_, expect_eq_ok.2 rfl,
      bind_eq_ok.2 ⟨_, number_eq_ok.2 rfl, rfl⟩⟩⟩

/-! ## Chains -/

section chain

variable {keyword : String} {combine : List Condition → Condition}
  {part : Reader Fault Token Condition} {isPart : List Token → Condition → Prop}
  {ends : List Token → Prop}

theorem isSound_chain (hpart : IsSound part isPart) :
    IsSound (chain keyword combine part) (IsChain keyword combine isPart) := by
  intro input c rest h
  obtain ⟨⟨parts, later⟩, hparts, heq⟩ := bind_eq_ok.1 h
  obtain ⟨rfl, rfl⟩ := Prod.mk.inj (pure_eq_ok.1 heq)
  obtain ⟨s, rfl, hs⟩ := isSound_separatedBy hpart hparts
  exact ⟨s, rfl, parts, hs, rfl⟩

theorem isComplete_chain (hpart : IsComplete part isPart ends)
    (hends : ∀ rest, ends (.word keyword :: rest)) :
    IsComplete (chain keyword combine part) (IsChain keyword combine isPart)
      (fun rest => ends rest ∧ eat? (.word keyword) rest = none) := by
  intro s c rest ⟨parts, hparts, hc⟩ hrest
  have hread := isComplete_separatedBy hpart hends hparts hrest
  exact bind_eq_ok.2 ⟨_, hread, by rw [hc]; rfl⟩

end chain

/-- What comes next ends an operand, and does not go on with a chain. -/
def EndsCondition (rest : List Token) : Prop :=
  (EndsOperand rest ∧ eat? (.word "and") rest = none) ∧ eat? (.word "or") rest = none

/-! ## Conditions -/

section levels

variable {part : Reader Fault Token Condition}

/-- A reader of conditions, given a reader of their atoms. -/
theorem isSound_level (hpart : IsSound part IsAtom) :
    IsSound (chain "or" .any (chain "and" .all part)) IsCondition := by
  have hconjunction : IsSound (chain "and" .all part) IsConjunction := by
    intro input c rest h
    obtain ⟨s, hinput, hs⟩ := isSound_chain hpart h
    exact ⟨s, hinput, isConjunction_iff.2 hs⟩
  intro input c rest h
  obtain ⟨s, hinput, hs⟩ := isSound_chain hconjunction h
  exact ⟨s, hinput, isCondition_iff.2 hs⟩

/-- The same for conditions of a limited length, given a reader of atoms of that length. -/
theorem isComplete_level {n : Nat}
    (hpart : IsComplete part (fun s c => s.length ≤ n ∧ IsAtom s c) EndsOperand) :
    IsComplete (chain "or" .any (chain "and" .all part))
      (fun s c => s.length ≤ n ∧ IsCondition s c) EndsCondition := by
  have hconjunction : IsComplete (chain "and" .all part)
      (fun s c => s.length ≤ n ∧ IsConjunction s c)
      (fun rest => EndsOperand rest ∧ eat? (.word "and") rest = none) := by
    intro s c rest ⟨hlength, hs⟩ hends
    obtain ⟨parts, hparts, hc⟩ := isConjunction_iff.1 hs
    have hatoms := hparts.imp_of_length_le (fun t x ht hx => And.intro ht hx) hlength
    refine isComplete_chain hpart (fun rest => ?_) ⟨parts, hatoms, hc⟩ hends
    exact endsOperand_cons (by simp) (by simp)
  intro s c rest ⟨hlength, hs⟩ hends
  obtain ⟨parts, hparts, hc⟩ := isCondition_iff.1 hs
  have hconjunctions := hparts.imp_of_length_le (fun t x ht hx => And.intro ht hx) hlength
  refine isComplete_chain hconjunction (fun rest => ?_) ⟨parts, hconjunctions, hc⟩ hends
  exact ⟨endsOperand_cons (by simp) (by simp), rfl⟩

end levels

section atoms

variable {inner : Reader Fault Token Condition}

theorem atom_group :
    atom inner (.mark '(' :: tokens) =
      inner tokens >>= fun (c, rest) => expect ')' rest >>= fun rest => pure (c, rest) := rfl

theorem atom_comparison (h : ∀ later, tokens ≠ .mark '(' :: later) :
    atom inner tokens = comparison tokens := by
  unfold atom
  split
  · next later => exact absurd rfl (h later)
  · rfl

theorem isSound_atom (hinner : IsSound inner IsCondition) : IsSound (atom inner) IsAtom := by
  intro input c rest h
  unfold atom at h
  split at h
  · next tail =>
    obtain ⟨⟨c', later⟩, hc, hnext⟩ := bind_eq_ok.1 h
    obtain ⟨later', hclose, heq⟩ := bind_eq_ok.1 hnext
    obtain ⟨rfl, rfl⟩ := Prod.mk.inj (pure_eq_ok.1 heq)
    obtain ⟨s, rfl, hs⟩ := hinner hc
    obtain rfl := expect_eq_ok.1 hclose
    exact ⟨.mark '(' :: (s ++ [.mark ')']), by simp, .group hs⟩
  · obtain ⟨s, hinput, hs⟩ := isSound_comparison h
    exact ⟨s, hinput, .comparison hs⟩

theorem isComplete_atom {n : Nat}
    (hinner : IsComplete inner (fun s c => s.length ≤ n ∧ IsCondition s c) EndsCondition) :
    IsComplete (atom inner) (fun s c => s.length ≤ n + 1 ∧ IsAtom s c) EndsOperand := by
  intro s c rest ⟨hlength, hs⟩ hends
  cases hs with
  | comparison h =>
    obtain ⟨token, later, heq, htoken⟩ := h.exists_eq_cons
    have hmark : ∀ later, s ++ rest ≠ .mark '(' :: later := by
      intro later' h'
      rw [heq] at h'
      exact htoken '(' (List.cons.inj h').1
    rw [atom_comparison hmark]
    exact isComplete_comparison h hends
  | @group s c h =>
    simp only [List.length_cons, List.length_append, List.length_nil] at hlength
    have hclose : EndsCondition (.mark ')' :: rest) :=
      ⟨⟨endsOperand_cons (by decide) (by decide), rfl⟩, rfl⟩
    have hs : inner (s ++ .mark ')' :: rest) = .ok (c, .mark ')' :: rest) :=
      hinner ⟨by omega, h⟩ hclose
    rw [List.cons_append, List.append_assoc, List.singleton_append, atom_group]
    exact bind_eq_ok.2 ⟨_, hs, bind_eq_ok.2 ⟨_, expect_eq_ok.2 rfl, rfl⟩⟩

end atoms

theorem isSound_nested (depth : Nat) : IsSound (nested depth) IsCondition := by
  induction depth with
  | zero =>
    refine isSound_level fun input c rest h => ?_
    obtain ⟨s, hinput, hs⟩ := isSound_comparison h
    exact ⟨s, hinput, .comparison hs⟩
  | succ depth ih => exact isSound_level (isSound_atom ih)

/-- Parentheses take tokens, so the depth that a condition of some length needs is not more than
    that length. -/
theorem isComplete_nested (depth : Nat) :
    IsComplete (nested depth) (fun s c => s.length ≤ depth ∧ IsCondition s c) EndsCondition := by
  induction depth with
  | zero =>
    refine isComplete_level fun s c rest hs hends => ?_
    obtain ⟨hlength, hs⟩ := hs
    cases hs with
    | comparison h => exact isComplete_comparison h hends
    | group => simp at hlength
  | succ depth ih => exact isComplete_level (isComplete_atom ih)

/-! ## Whole texts -/

theorem whole_eq_ok {c : Condition} : whole tokens = .ok c ↔ IsCondition tokens c := by
  constructor
  · intro h
    obtain ⟨⟨c', rest⟩, hc, hnext⟩ := bind_eq_ok.1 h
    obtain ⟨s, rfl, hs⟩ := isSound_nested _ hc
    dsimp only at hnext
    split at hnext
    · obtain rfl := pure_eq_ok.1 hnext
      rwa [List.append_nil]
    · exact nomatch hnext
  · intro h
    have hends : EndsCondition [] := ⟨⟨endsOperand_nil, rfl⟩, rfl⟩
    have hcondition := isComplete_nested tokens.length ⟨Nat.le_refl _, h⟩ hends
    rw [List.append_nil] at hcondition
    exact bind_eq_ok.2 ⟨_, hcondition, rfl⟩

end Parser

theorem parse_eq_ok {text : String} {c : Condition} :
    parse text = .ok c ↔ Describes text c := by
  constructor
  · intro h
    unfold parse at h
    dsimp only at h
    split at h
    · exact nomatch h
    · next lexemes hscan =>
      split at h
      · exact nomatch h
      · next condition hwhole =>
        obtain rfl := Except.ok.inj h
        exact ⟨_, Token.exists_scan_eq_ok.1 ⟨lexemes, hscan, rfl⟩, Parser.whole_eq_ok.1 hwhole⟩
  · rintro ⟨tokens, hsplits, hcondition⟩
    obtain ⟨lexemes, hscan, rfl⟩ := Token.exists_scan_eq_ok.2 hsplits
    unfold parse
    dsimp only
    rw [hscan]
    dsimp only
    rw [Parser.whole_eq_ok.2 hcondition]

/-- Digits at the front of a word do not end it. -/
example : (parse "a == 12and b == 3").toOption.isNone := by decide +kernel

/-- A text describes at most one condition. -/
theorem Describes.unique {text : String} {c c' : Condition} (h : Describes text c)
    (h' : Describes text c') : c = c' :=
  Except.ok.inj ((parse_eq_ok.2 h).symm.trans (parse_eq_ok.2 h'))

end Condition

namespace Instruction

theorem parseCondition_eq_ok {name text : String} {c : Condition} :
    parseCondition name text = .ok c ↔ Condition.Describes text c := by
  rw [parseCondition, mapError_eq_ok, Condition.parse_eq_ok]

/-- An instruction accepts exactly the texts that describe a condition, whatever its name is, and
    takes them as the one condition that they describe. -/
theorem parseCondition_iff_describes (name text : String) :
    (∀ c, parseCondition name text = .ok c ↔ Condition.Describes text c) ∧
      ∀ c c', Condition.Describes text c → Condition.Describes text c' → c = c' :=
  ⟨fun _ => parseCondition_eq_ok, fun _ _ h h' => h.unique h'⟩

end Instruction

end IsaCodec
