import IsaCodec.Condition.Parser
import IsaCodec.Proofs.Condition.Pieces
import IsaCodec.Proofs.Reading

/-! # Grammar of conditions

    Which tokens describe which condition:

        condition   := conjunction ("or" conjunction)*
        conjunction := atom ("and" atom)*
        atom        := comparison | "(" condition ")"
        comparison  := operand operator operand
                     | operand "in" "[" number ("," number)* "]"
                     | operand "in_range" number "-" number
        operand     := number | name | name "[" number "]" | name "(" operand ")"

    Parentheses leave no trace in the tree.  A conjunction of one atom is that
    atom, and a longer one is a single node with the atoms in order; the same
    holds of a condition and its conjunctions.

    * **`IsOperand`, `IsComparison`, `IsAtom`, `IsConjunction`, `IsCondition`**
      — the rules.
    * **`Describes`** — a text and the condition that its tokens describe.
    * **`IsCondition.induction`** — induction over the rules. -/

namespace IsaCodec.Condition

/-- The words that have a meaning of their own. -/
def keywords : List String :=
  ["and", "or", "in", "in_range"]

/-- The name of a field or function. -/
def IsName (name : String) : Prop :=
  name ∉ keywords

/-- A number by itself. -/
def IsNumber (tokens : List Token) (value : Code) : Prop :=
  tokens = [.number value]

/-- The tokens of an operand.  An element index is below `2 ^ 32`. -/
inductive IsOperand : List Token → Operand → Prop where
  | immediate (value : Code) : IsOperand [.number value] (.immediate value)
  | field {name : String} (hname : IsName name) : IsOperand [.word name] (.field name none)
  | element {name : String} {index : Code} (hname : IsName name) (hindex : index.toNat < 2 ^ 32) :
      IsOperand [.word name, .mark '[', .number index, .mark ']']
        (.field name (some index.toNat))
  | call {name : String} {s : List Token} {argument : Operand} (hname : IsName name)
      (hargument : IsOperand s argument) :
      IsOperand (.word name :: .mark '(' :: (s ++ [.mark ')'])) (.call name argument)

/-- The tokens of a condition without connectives. -/
inductive IsComparison : List Token → Condition → Prop where
  | compare {s t : List Token} {subject object : Operand} (operator : Comparison)
      (hsubject : IsOperand s subject) (hobject : IsOperand t object) :
      IsComparison (s ++ .comparison operator :: t) (.compare subject operator object)
  | inSet {s t : List Token} {subject : Operand} {values : List Code}
      (hsubject : IsOperand s subject) (hvalues : Separated (· = [.mark ',']) IsNumber t values) :
      IsComparison (s ++ .word "in" :: .mark '[' :: (t ++ [.mark ']'])) (.inSet subject values)
  | inRange {s : List Token} {subject : Operand} (first last : Code)
      (hsubject : IsOperand s subject) :
      IsComparison (s ++ [.word "in_range", .number first, .mark '-', .number last])
        (.inRange subject first last)

mutual

/-- The tokens of a part of a conjunction. -/
inductive IsAtom : List Token → Condition → Prop where
  | comparison {s : List Token} {c : Condition} (h : IsComparison s c) : IsAtom s c
  | group {s : List Token} {c : Condition} (h : IsCondition s c) :
      IsAtom (.mark '(' :: (s ++ [.mark ')'])) c

/-- The tokens of a part of a condition. -/
inductive IsConjunction : List Token → Condition → Prop where
  | one {s : List Token} {c : Condition} (h : IsAtom s c) : IsConjunction s c
  | more {s : List Token} {parts : List Condition}
      (h : Separated (· = [.word "and"]) IsAtom s parts) (hparts : 2 ≤ parts.length) :
      IsConjunction s (.all parts)

/-- The tokens of a condition. -/
inductive IsCondition : List Token → Condition → Prop where
  | one {s : List Token} {c : Condition} (h : IsConjunction s c) : IsCondition s c
  | more {s : List Token} {parts : List Condition}
      (h : Separated (· = [.word "or"]) IsConjunction s parts) (hparts : 2 ≤ parts.length) :
      IsCondition s (.any parts)

end

/-- A text is divided into tokens that describe a condition. -/
def Describes (text : String) (c : Condition) : Prop :=
  ∃ tokens, Token.Splits text.toList tokens ∧ IsCondition tokens c

/-- An operand starts with a number or a name. -/
theorem IsOperand.exists_eq_cons {s : List Token} {x : Operand} (h : IsOperand s x) :
    ∃ token rest, s = token :: rest ∧ ∀ c, token ≠ .mark c := by
  cases h <;> exact ⟨_, _, rfl, fun _ => by simp⟩

theorem IsComparison.exists_eq_cons {s : List Token} {c : Condition} (h : IsComparison s c) :
    ∃ token rest, s = token :: rest ∧ ∀ c, token ≠ .mark c := by
  cases h with
  | compare _ hsubject | inSet hsubject | inRange _ _ hsubject =>
    obtain ⟨token, rest, rfl, htoken⟩ := hsubject.exists_eq_cons
    exact ⟨token, _, rfl, htoken⟩

/-! ## Chains

    Both kinds of chains are read and written alike, as parts with a keyword
    between them. -/

/-- One part by itself, or more parts with a keyword between them as one node. -/
def IsChain (keyword : String) (combine : List Condition → Condition)
    (isPart : List Token → Condition → Prop) (s : List Token) (c : Condition) : Prop :=
  ∃ parts, Separated (· = [.word keyword]) isPart s parts ∧ c = Parser.join combine parts

section chains

variable {keyword : String} {combine : List Condition → Condition}
  {isPart : List Token → Condition → Prop} {s : List Token} {c : Condition}

theorem join_of_two_le {parts : List Condition} (h : 2 ≤ parts.length) :
    Parser.join combine parts = combine parts := by
  match parts, h with
  | _ :: _ :: _, _ => rfl

theorem isChain_iff :
    IsChain keyword combine isPart s c ↔
      isPart s c ∨ ∃ parts, Separated (· = [.word keyword]) isPart s parts ∧
        2 ≤ parts.length ∧ c = combine parts := by
  constructor
  · rintro ⟨parts, hparts, rfl⟩
    match parts, hparts with
    | [], hparts => exact absurd rfl hparts.ne_nil
    | [part], hparts => exact .inl (Separated.singleton_iff.1 hparts)
    | first :: second :: parts, hparts => exact .inr ⟨_, hparts, by simp, rfl⟩
  · rintro (h | ⟨parts, hparts, htwo, rfl⟩)
    · exact ⟨[c], .one h, rfl⟩
    · exact ⟨parts, hparts, (join_of_two_le htwo).symm⟩

theorem isConjunction_iff : IsConjunction s c ↔ IsChain "and" .all IsAtom s c := by
  rw [isChain_iff]
  constructor
  · intro h
    cases h with
    | one h => exact .inl h
    | more h hparts => exact .inr ⟨_, h, hparts, rfl⟩
  · rintro (h | ⟨parts, h, hparts, rfl⟩)
    · exact .one h
    · exact .more h hparts

theorem isCondition_iff : IsCondition s c ↔ IsChain "or" .any IsConjunction s c := by
  rw [isChain_iff]
  constructor
  · intro h
    cases h with
    | one h => exact .inl h
    | more h hparts => exact .inr ⟨_, h, hparts, rfl⟩
  · rintro (h | ⟨parts, h, hparts, rfl⟩)
    · exact .one h
    · exact .more h hparts

end chains

/-! ## Induction on derivations -/

/-- What holds of comparisons and passes to groups and chains holds of all conditions. -/
@[elab_as_elim]
theorem IsCondition.induction {motive : List Token → Condition → Prop}
    (comparison : ∀ {s c}, IsComparison s c → motive s c)
    (group : ∀ {s c}, motive s c → motive (.mark '(' :: (s ++ [.mark ')'])) c)
    (all : ∀ {s parts}, Separated (· = [.word "and"]) motive s parts → 2 ≤ parts.length →
      motive s (.all parts))
    (any : ∀ {s parts}, Separated (· = [.word "or"]) motive s parts → 2 ≤ parts.length →
      motive s (.any parts))
    {s : List Token} {c : Condition} (h : IsCondition s c) : motive s c := by
  -- The rules for parts of chains carry the motive to `Separated`.
  refine @IsCondition.rec (fun s c _ => motive s c) (fun s c _ => motive s c)
    (fun s c _ => motive s c)
    (fun s parts _ => Separated (· = [.word "and"]) motive s parts)
    (fun s parts _ => Separated (· = [.word "or"]) motive s parts)
    (fun h => comparison h) (fun _ ih => group ih)
    (fun _ ih => ih) (fun _ htwo ih => all ih htwo)
    (fun _ ih => ih) (fun _ htwo ih => any ih htwo) ?_ ?_ ?_ ?_ s c h
  · intro s c _ ih
    exact .one ih
  · intro s t rest c parts _ ht _ ih ihs
    exact .more ih ht ihs
  · intro s c _ ih
    exact .one ih
  · intro s t rest c parts _ ht _ ih ihs
    exact .more ih ht ihs

end IsaCodec.Condition
