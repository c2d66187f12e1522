import IsaCodec.Condition.Printer
import IsaCodec.Proofs.Condition.Parsing

/-! # Reading back what was written

    Writing a condition puts its tokens one after another, with blanks only
    where the text is easier to read with them.  The tokens describe the
    condition again, since a chain inside another chain stands in parentheses,
    and the text is divided into just these tokens, since no word stands next
    to another one.

    * **`Condition.IsWellFormed`** — the conditions that a text can describe.
    * **`Writes`** — a text that is divided into the tokens of a thing,
      wherever it stands in front of something that ends its last word.
    * **`parseCondition_text`** — reading and writing are inverse. -/

namespace IsaCodec

open Condition Condition.Token

/-! ## Well-formed conditions -/

/-- A name that can be written in a condition. -/
def IsReference (name : String) : Prop :=
  IsIdentifier name.toList ∧ IsName name

/-- An operand with proper names and an element index below `2 ^ 32`. -/
def Operand.IsWellFormed : Operand → Prop
  | field name element => IsReference name ∧ ∀ index ∈ element, index < 2 ^ 32
  | immediate _ => True
  | call function argument => IsReference function ∧ argument.IsWellFormed

/-- A condition of well-formed operands without empty sets and without chains of fewer than two
    parts. -/
inductive Condition.IsWellFormed : Condition → Prop where
  | compare {subject object : Operand} (operator : Comparison) (hsubject : subject.IsWellFormed)
      (hobject : object.IsWellFormed) : IsWellFormed (.compare subject operator object)
  | inSet {subject : Operand} {values : List Code} (hsubject : subject.IsWellFormed)
      (hvalues : values ≠ []) : IsWellFormed (.inSet subject values)
  | inRange {subject : Operand} (first last : Code) (hsubject : subject.IsWellFormed) :
      IsWellFormed (.inRange subject first last)
  | all {children : List Condition} (htwo : 2 ≤ children.length)
      (hchildren : ∀ child ∈ children, IsWellFormed child) : IsWellFormed (.all children)
  | any {children : List Condition} (htwo : 2 ≤ children.length)
      (hchildren : ∀ child ∈ children, IsWellFormed child) : IsWellFormed (.any children)

namespace Condition

/-- The words among some tokens are identifiers. -/
def HasIdentifiers (tokens : List Token) : Prop :=
  ∀ word, .word word ∈ tokens → IsIdentifier word.toList

theorem HasIdentifiers.of_subset {s t : List Token} (h : HasIdentifiers t) (hs : s ⊆ t) :
    HasIdentifiers s :=
  fun word hword => h word (hs hword)

theorem IsOperand.isWellFormed {s : List Token} {x : Operand} (h : IsOperand s x)
    (hs : HasIdentifiers s) : x.IsWellFormed := by
  induction h with
  | immediate => trivial
  | field hname => exact ⟨⟨hs _ List.mem_cons_self, hname⟩, fun _ h => nomatch h⟩
  | element hname hindex =>
    refine ⟨⟨hs _ List.mem_cons_self, hname⟩, fun index h => ?_⟩
    obtain rfl := Option.some.inj h
    exact hindex
  | call hname _ ih =>
    exact ⟨⟨hs _ List.mem_cons_self, hname⟩, ih (hs.of_subset fun token htoken => by simp [htoken])⟩

theorem IsComparison.isWellFormed {s : List Token} {c : Condition} (h : IsComparison s c)
    (hs : HasIdentifiers s) : c.IsWellFormed := by
  cases h with
  | compare operator hsubject hobject =>
    exact .compare operator (hsubject.isWellFormed (hs.of_subset (by simp)))
      (hobject.isWellFormed (hs.of_subset (by simp)))
  | inSet hsubject hvalues =>
    exact .inSet (hsubject.isWellFormed (hs.of_subset (by simp))) hvalues.ne_nil
  | inRange first last hsubject =>
    exact .inRange first last (hsubject.isWellFormed (hs.of_subset (by simp)))

theorem IsCondition.isWellFormed {s : List Token} {c : Condition} (h : IsCondition s c)
    (hs : HasIdentifiers s) : c.IsWellFormed := by
  have hparts : ∀ {separator : List Token → Prop} {s : List Token} {parts : List Condition},
      Separated separator (fun s c => HasIdentifiers s → c.IsWellFormed) s parts →
        HasIdentifiers s → ∀ child ∈ parts, child.IsWellFormed := by
    intro separator s parts h hs child hchild
    obtain ⟨t, ht, himp⟩ := h.exists_infix_of_mem hchild
    exact himp (hs.of_subset ht.subset)
  revert hs
  refine IsCondition.induction ?_ ?_ ?_ ?_ h
  · intro s c h
    exact h.isWellFormed
  · intro s c ih hs
    exact ih (hs.of_subset fun token htoken => by simp [htoken])
  · intro s parts ih htwo hs
    exact .all htwo (hparts ih hs)
  · intro s parts ih htwo hs
    exact .any htwo (hparts ih hs)

theorem Describes.isWellFormed {text : String} {c : Condition} (h : Describes text c) :
    c.IsWellFormed := by
  obtain ⟨tokens, hsplits, hcondition⟩ := h
  exact hcondition.isWellFormed fun word hword => hsplits.isIdentifier_of_mem hword

/-! ## Written text

    A division is built from the end of the text: whatever is written comes in
    front of a text that is divided already. -/

/-- In front of what ends a word, the text is divided into tokens that describe the thing. -/
def Writes {α : Type} (describes : List Token → α → Prop) (text : List Char) (x : α) : Prop :=
  ∃ tokens, describes tokens x ∧ ∀ rest later, EndsWord rest → Splits rest later →
    Splits (text ++ rest) (tokens ++ later)

theorem writes_number (value : Code) : Writes IsNumber value.decimal value := by
  refine ⟨[.number value], rfl, fun rest later hends h => ?_⟩
  have hnumber := h.decimal_append value.isLt hends
  rwa [BitVec.ofNat_toNat, BitVec.setWidth_eq] at hnumber

theorem writes_operand {x : Operand} (hx : x.IsWellFormed) : Writes IsOperand x.render x := by
  induction x with
  | field name element =>
    obtain ⟨⟨hword, hname⟩, helement⟩ := hx
    cases element with
    | none => exact ⟨[.word name], .field hname, fun _ _ hends h => h.word_append hword hends⟩
    | some index =>
      have hlt : index < 2 ^ 32 := helement index rfl
      have hindex : (BitVec.ofNat 64 index).toNat = index :=
        Nat.mod_eq_of_lt (Nat.lt_trans hlt (by decide))
      refine ⟨[.word name, .mark '[', .number (BitVec.ofNat 64 index), .mark ']'], ?_, ?_⟩
      · have helement : IsOperand [.word name, .mark '[', .number (BitVec.ofNat 64 index), .mark ']']
            (.field name (some (BitVec.ofNat 64 index).toNat)) := .element hname (by rwa [hindex])
        rwa [hindex] at helement
      · intro rest later hends h
        have hclose : Splits (']' :: rest) (.mark ']' :: later) := h.mark_cons rfl
        have hnumber := hclose.decimal_append (Nat.lt_trans hlt (by decide)) (endsWord_cons rfl)
        have hopen := hnumber.mark_cons (c := '[') rfl
        simpa [Operand.render] using hopen.word_append hword (endsWord_cons rfl)
  | immediate value =>
    obtain ⟨tokens, htokens, hsplits⟩ := writes_number value
    obtain rfl : tokens = [.number value] := htokens
    exact ⟨[.number value], .immediate value, hsplits⟩
  | call function argument ih =>
    obtain ⟨⟨hword, hname⟩, hargument⟩ := hx
    obtain ⟨tokens, htokens, hsplits⟩ := ih hargument
    refine ⟨.word function :: .mark '(' :: (tokens ++ [.mark ')']), .call hname htokens, ?_⟩
    intro rest later hends h
    have hclose : Splits (')' :: rest) (.mark ')' :: later) := h.mark_cons rfl
    have hopen := (hsplits _ _ (endsWord_cons rfl) hclose).mark_cons (c := '(') rfl
    simpa [Operand.render] using hopen.word_append hword (endsWord_cons rfl)

/-- Things that can be written one by one can be written with separators between them, if the
    separators end words. -/
theorem writes_intercalate {α : Type} {item : List Token → α → Prop} {write : α → List Char}
    {separator : List Char} {token : Token} {xs : List α}
    (hitem : ∀ x ∈ xs, Writes item (write x) x)
    (hseparator : ∀ rest later, Splits rest later → Splits (separator ++ rest) (token :: later))
    (hends : ∀ rest, EndsWord (separator ++ rest)) (hne : xs ≠ []) :
    Writes (Separated (· = [token]) item) (separator.intercalate (xs.map write)) xs := by
  induction xs with
  | nil => exact absurd rfl hne
  | cons x xs ih =>
    obtain ⟨s, hs, hsplits⟩ := hitem x List.mem_cons_self
    cases xs with
    | nil => exact ⟨s, .one hs, by simpa using hsplits⟩
    | cons y ys =>
      obtain ⟨t, ht, hsplits'⟩ := ih (fun z hz => hitem z (List.mem_cons_of_mem x hz)) (by simp)
      refine ⟨s ++ ([token] ++ t), .more hs rfl ht, fun rest later hrest h => ?_⟩
      have hlater := hseparator _ _ (hsplits' rest later hrest h)
      have hall := hsplits _ _ (hends _) hlater
      simpa [List.intercalate_cons_cons] using hall

theorem writes_values {values : List Code} (hvalues : values ≠ []) :
    Writes (Separated (· = [.mark ',']) IsNumber)
      ([',', ' '].intercalate (values.map Code.decimal)) values := by
  refine writes_intercalate (fun value _ => writes_number value) ?_ ?_ hvalues
  · intro rest later h
    have hblank : Splits (' ' :: rest) later := .blank rfl h
    exact hblank.mark_cons rfl
  · intro rest
    exact endsWord_cons rfl

/-! ## Conditions -/

theorem isIdentifier_cons {c : Char} {rest : List Char} (hc : c.isAlpha ∨ c = '_')
    (hrest : rest.all isWordChar) : IsIdentifier (c :: rest) :=
  ⟨c, rest, rfl, hc, fun d hd => isWordChar_iff.1 (List.all_eq_true.1 hrest d hd)⟩

theorem isIdentifier_keyword {keyword : String} (h : keyword ∈ keywords) :
    IsIdentifier keyword.toList := by
  simp only [keywords, List.mem_cons, List.not_mem_nil, or_false] at h
  rcases h with rfl | rfl | rfl | rfl
  · show IsIdentifier ['a', 'n', 'd']
    exact isIdentifier_cons (by decide) (by decide)
  · show IsIdentifier ['o', 'r']
    exact isIdentifier_cons (by decide) (by decide)
  · show IsIdentifier ['i', 'n']
    exact isIdentifier_cons (by decide) (by decide)
  · show IsIdentifier ['i', 'n', '_', 'r', 'a', 'n', 'g', 'e']
    exact isIdentifier_cons (by decide) (by decide)

/-- Keywords are written with blanks on both sides. -/
theorem splits_keyword (keyword : String) {rest : List Char} {later : List Token}
    (hkeyword : keyword ∈ keywords) (h : Splits rest later) :
    Splits (' ' :: (keyword.toList ++ ' ' :: rest)) (.word keyword :: later) := by
  have hblank : Splits (' ' :: rest) later := .blank rfl h
  have hword := hblank.word_append (isIdentifier_keyword hkeyword) (endsWord_cons rfl)
  exact .blank rfl hword

/-- What a condition without connectives is written as. -/
theorem writes_comparison {c : Condition} (hc : c.IsWellFormed) (hcompound : ¬c.isCompound) :
    Writes IsComparison c.render c := by
  cases hc with
  | @compare subject object operator hsubject hobject =>
    obtain ⟨s, hs, hsplits⟩ := writes_operand hsubject
    obtain ⟨t, ht, hsplits'⟩ := writes_operand hobject
    refine ⟨s ++ .comparison operator :: t, .compare operator hs ht, fun rest later hends h => ?_⟩
    have hblank : Splits (' ' :: (object.render ++ rest)) (t ++ later) :=
      .blank rfl (hsplits' rest later hends h)
    have hoperator := hblank.symbol_append operator (by simp)
    have hall := hsplits _ _ (endsWord_cons rfl) (hoperator.blank (c := ' ') rfl)
    simpa [render] using hall
  | @inSet subject values hsubject hvalues =>
    obtain ⟨s, hs, hsplits⟩ := writes_operand hsubject
    obtain ⟨t, ht, hsplits'⟩ := writes_values hvalues
    refine ⟨s ++ .word "in" :: .mark '[' :: (t ++ [.mark ']']), .inSet hs ht, ?_⟩
    intro rest later hends h
    have hclose : Splits (']' :: rest) (.mark ']' :: later) := h.mark_cons rfl
    have hopen := (hsplits' _ _ (endsWord_cons rfl) hclose).mark_cons (c := '[') rfl
    have hkeyword := splits_keyword "in" (by decide) hopen
    have hall := hsplits _ _ (endsWord_cons rfl) hkeyword
    simpa [render] using hall
  | @inRange subject first last hsubject =>
    obtain ⟨s, hs, hsplits⟩ := writes_operand hsubject
    obtain ⟨_, rfl, hfirst⟩ := writes_number first
    obtain ⟨_, rfl, hlast⟩ := writes_number last
    refine ⟨_, .inRange first last hs, fun rest later hends h => ?_⟩
    have hminus := (hlast rest later hends h).mark_cons (c := '-') rfl
    have hnumbers := hfirst _ _ (endsWord_cons rfl) hminus
    have hkeyword := splits_keyword "in_range" (by decide) hnumbers
    have hall := hsplits _ _ (endsWord_cons rfl) hkeyword
    simpa [render] using hall
  | all | any => exact absurd rfl hcompound

theorem renderChain_eq (separator : List Char) (children : List Condition) :
    renderChain separator children =
      separator.intercalate (children.map fun child => child.parenthesize child.render) := by
  induction children with
  | nil => rw [renderChain]; rfl
  | cons child rest ih =>
    cases rest with
    | nil => simp [renderChain]
    | cons next rest =>
      rw [renderChain, ih]
      · simp [List.intercalate_cons_cons]
      · simp

/-- Parts of a chain that can be written by themselves can be written with a keyword between
    them. -/
theorem writes_chain (keyword : String) {isPart : List Token → Condition → Prop}
    {children : List Condition} (hkeyword : keyword ∈ keywords) (hne : children ≠ [])
    (hchildren : ∀ child ∈ children, Writes isPart (child.parenthesize child.render) child) :
    Writes (Separated (· = [.word keyword]) isPart)
      (renderChain (' ' :: (keyword.toList ++ [' '])) children) children := by
  rw [renderChain_eq]
  refine writes_intercalate hchildren ?_ ?_ hne
  · intro rest later h
    simpa using splits_keyword keyword hkeyword h
  · intro rest
    exact endsWord_cons rfl

/-- Parentheses make a condition a part of a chain. -/
theorem Writes.group {c : Condition} {text : List Char} (h : Writes IsCondition text c) :
    Writes IsAtom ('(' :: text ++ [')']) c := by
  obtain ⟨tokens, htokens, hsplits⟩ := h
  refine ⟨_, .group htokens, fun rest later hends h => ?_⟩
  have hclose : Splits (')' :: rest) (.mark ')' :: later) := h.mark_cons rfl
  have hopen := (hsplits _ _ (endsWord_cons rfl) hclose).mark_cons (c := '(') rfl
  simpa using hopen

theorem writes_all {children : List Condition} (htwo : 2 ≤ children.length)
    (hchildren : ∀ child ∈ children, Writes IsAtom (child.parenthesize child.render) child) :
    Writes IsCondition (all children).render (all children) := by
  have hne : children ≠ [] := List.length_pos_iff.1 (by omega)
  obtain ⟨tokens, htokens, hsplits⟩ := writes_chain "and" (by decide) hne hchildren
  exact ⟨tokens, .one (.more htokens htwo), by simpa [render] using hsplits⟩

theorem writes_any {children : List Condition} (htwo : 2 ≤ children.length)
    (hchildren : ∀ child ∈ children, Writes IsAtom (child.parenthesize child.render) child) :
    Writes IsCondition (any children).render (any children) := by
  have hne : children ≠ [] := List.length_pos_iff.1 (by omega)
  have hparts : ∀ child ∈ children,
      Writes IsConjunction (child.parenthesize child.render) child := by
    intro child hchild
    obtain ⟨tokens, htokens, hsplits⟩ := hchildren child hchild
    exact ⟨tokens, .one htokens, hsplits⟩
  obtain ⟨tokens, htokens, hsplits⟩ := writes_chain "or" (by decide) hne hparts
  exact ⟨tokens, .more htokens htwo, by simpa [render] using hsplits⟩

theorem writes_atom_of_not_isCompound {c : Condition} (hc : c.IsWellFormed)
    (hcompound : ¬c.isCompound) : Writes IsAtom (c.parenthesize c.render) c := by
  obtain ⟨tokens, htokens, hsplits⟩ := writes_comparison hc hcompound
  rw [parenthesize, if_neg hcompound]
  exact ⟨tokens, .comparison htokens, hsplits⟩

/-- Inside a chain a condition is written as a part of it. -/
theorem writes_atom {c : Condition} (hc : c.IsWellFormed) :
    Writes IsAtom (c.parenthesize c.render) c := by
  induction hc with
  | compare operator hsubject hobject =>
    exact writes_atom_of_not_isCompound (.compare operator hsubject hobject) (by simp [isCompound])
  | inSet hsubject hvalues =>
    exact writes_atom_of_not_isCompound (.inSet hsubject hvalues) (by simp [isCompound])
  | inRange first last hsubject =>
    exact writes_atom_of_not_isCompound (.inRange first last hsubject) (by simp [isCompound])
  | all htwo _ ih => exact (writes_all htwo ih).group
  | any htwo _ ih => exact (writes_any htwo ih).group

theorem writes_condition {c : Condition} (hc : c.IsWellFormed) :
    Writes IsCondition c.render c := by
  have hchildren : ∀ {children : List Condition}, (∀ child ∈ children, child.IsWellFormed) →
      ∀ child ∈ children, Writes IsAtom (child.parenthesize child.render) child :=
    fun h child hchild => writes_atom (h child hchild)
  by_cases hcompound : c.isCompound
  · cases hc with
    | all htwo h => exact writes_all htwo (hchildren h)
    | any htwo h => exact writes_any htwo (hchildren h)
    | compare | inSet | inRange => cases hcompound
  · obtain ⟨tokens, htokens, hsplits⟩ := writes_comparison hc hcompound
    exact ⟨tokens, .one (.one (.comparison htokens)), hsplits⟩

theorem describes_text {c : Condition} (hc : c.IsWellFormed) : Describes c.text c := by
  obtain ⟨tokens, htokens, hsplits⟩ := writes_condition hc
  have htext : Splits (c.render ++ []) (tokens ++ []) := hsplits [] [] rfl .nil
  rw [List.append_nil, List.append_nil] at htext
  exact ⟨tokens, by rwa [text, String.toList_ofList], htokens⟩

end Condition

namespace Instruction

/-- What an instruction accepts as a condition is well-formed, and each well-formed condition is
    accepted as what it is written as; so different conditions are written differently, and what
    was accepted once is accepted again in its written form. -/
theorem parseCondition_text (name : String) :
    (∀ text c, parseCondition name text = .ok c → c.IsWellFormed) ∧
      (∀ c : Condition, c.IsWellFormed → parseCondition name c.text = .ok c) ∧
      (∀ c c' : Condition, c.IsWellFormed → c'.IsWellFormed → c.text = c'.text → c = c') ∧
      ∀ text c, parseCondition name text = .ok c → parseCondition name c.text = .ok c := by
  have hread : ∀ text c, parseCondition name text = .ok c → c.IsWellFormed :=
    fun _ _ h => (parseCondition_eq_ok.1 h).isWellFormed
  have hwritten : ∀ c : Condition, c.IsWellFormed → parseCondition name c.text = .ok c :=
    fun _ hc => parseCondition_eq_ok.2 (Condition.describes_text hc)
  refine ⟨hread, hwritten, ?_, fun text c h => hwritten c (hread text c h)⟩
  intro c c' hc hc' htext
  have h := hwritten c hc
  rw [htext, hwritten c' hc'] at h
  exact (Except.ok.inj h).symm

end Instruction

end IsaCodec
