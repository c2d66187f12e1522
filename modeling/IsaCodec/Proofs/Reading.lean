import IsaCodec.Proofs.Outcome
import IsaCodec.Reading

/-! # Readers and grammars

    A grammar says which items describe a value, and a reader takes them off
    the front of its input.  The two agree if the reader takes nothing that
    the grammar does not allow, and all of what the grammar allows as long as
    what comes next cannot continue it.

    * **`Separated`** — one or more things with separators between them.
    * **`Reader.IsSound`, `Reader.IsComplete`** — the two halves of agreement.
    * **`Reader.separated_induction`** — induction over the items of a list
      that was read.
    * **`Reader.isSound_separated`, `Reader.isComplete_separated`** — both
      halves pass from the items to the lists of them. -/

namespace IsaCodec

variable {ε σ α : Type}

/-! ## Things with separators between them -/

/-- One or more things, each of them described by some items, with separators between them. -/
inductive Separated (separator : List σ → Prop) (item : List σ → α → Prop) :
    List σ → List α → Prop where
  | one {s : List σ} {x : α} (hitem : item s x) : Separated separator item s [x]
  | more {s t rest : List σ} {x : α} {xs : List α} (hitem : item s x) (hseparator : separator t)
      (hrest : Separated separator item rest xs) :
      Separated separator item (s ++ (t ++ rest)) (x :: xs)

namespace Separated

variable {separator : List σ → Prop} {item item' : List σ → α → Prop} {s : List σ} {xs : List α}

theorem ne_nil (h : Separated separator item s xs) : xs ≠ [] := by
  cases h <;> exact List.cons_ne_nil _ _

theorem singleton_iff {x : α} : Separated separator item s [x] ↔ item s x := by
  constructor
  · intro h
    cases h with
    | one hitem => exact hitem
    | more _ _ hrest => exact absurd rfl hrest.ne_nil
  · exact .one

/-- Each thing is described by a part of the items. -/
theorem exists_infix_of_mem (h : Separated separator item s xs) {x : α} (hx : x ∈ xs) :
    ∃ t, t <:+: s ∧ item t x := by
  induction h with
  | one hitem =>
    obtain rfl := List.mem_singleton.1 hx
    exact ⟨_, List.infix_rfl, hitem⟩
  | @more s t rest y ys hitem _ _ ih =>
    rcases List.mem_cons.1 hx with rfl | hx
    · exact ⟨s, ⟨[], t ++ rest, by simp⟩, hitem⟩
    · obtain ⟨part, ⟨before, after, rfl⟩, hpart⟩ := ih hx
      exact ⟨part, ⟨s ++ t ++ before, after, by simp⟩, hpart⟩

/-- Only descriptions that are not longer than the whole matter. -/
theorem imp_of_length_le {n : Nat} (himp : ∀ t x, t.length ≤ n → item t x → item' t x)
    (h : Separated separator item s xs) (hlength : s.length ≤ n) :
    Separated separator item' s xs := by
  induction h with
  | one hitem => exact .one (himp _ _ hlength hitem)
  | more hitem hseparator _ ih =>
    simp only [List.length_append] at hlength
    exact .more (himp _ _ (by omega) hitem) hseparator (ih (by omega))

/-- If separators are not empty, there are not more things than items, up to one. -/
theorem length_le (hne : ∀ t, separator t → t ≠ []) (h : Separated separator item s xs) :
    xs.length ≤ s.length + 1 := by
  induction h with
  | one => exact Nat.le_add_left _ _
  | @more s t rest x xs _ hseparator _ ih =>
    have hpos : 0 < t.length := List.length_pos_iff.2 (hne t hseparator)
    simp only [List.length_append, List.length_cons]
    omega

end Separated

/-! ## Readers -/

namespace Reader

/-- What the reader takes describes the value that it gives. -/
def IsSound (reader : Reader ε σ α) (describes : List σ → α → Prop) : Prop :=
  ∀ ⦃input x rest⦄, reader input = .ok (x, rest) → ∃ s, input = s ++ rest ∧ describes s x

/-- What describes a value is taken as that value, if what comes next ends it. -/
def IsComplete (reader : Reader ε σ α) (describes : List σ → α → Prop) (ends : List σ → Prop) :
    Prop :=
  ∀ ⦃s x rest⦄, describes s x → ends rest → reader (s ++ rest) = .ok (x, rest)

section separated

variable {item : Reader ε σ α} {separator : List σ → Option (List σ)}
  {isItem : List σ → α → Prop} {isSeparator : List σ → Prop} {ends : List σ → Prop}

theorem separatedUpTo_zero (input : List σ) :
    separatedUpTo item separator 0 input =
      item input >>= fun (x, rest) => pure ([x], rest) := rfl

theorem separatedUpTo_succ (more : Nat) (input : List σ) :
    separatedUpTo item separator (more + 1) input =
      item input >>= fun (x, rest) =>
        match separator rest with
        | none => pure ([x], rest)
        | some rest =>
          separatedUpTo item separator more rest >>= fun (xs, rest) => pure (x :: xs, rest) := rfl

/-- What holds of single items, and passes to a list from the part of it after a separator, holds
    of all lists that are read. -/
theorem separated_induction {motive : List σ → List α → List σ → Prop}
    (one : ∀ {input x rest}, item input = .ok (x, rest) → motive input [x] rest)
    (more : ∀ {input x s t xs rest}, item input = .ok (x, s) → separator s = some t →
      motive t xs rest → motive input (x :: xs) rest)
    {input : List σ} {xs : List α} {rest : List σ}
    (h : separated item separator input = .ok (xs, rest)) : motive input xs rest := by
  -- The bound on the number of items goes down while the list is read.
  suffices hbound : ∀ n input xs,
      separatedUpTo item separator n input = .ok (xs, rest) → motive input xs rest from
    hbound _ input xs h
  intro n
  induction n with
  | zero =>
    intro input xs h
    rw [separatedUpTo_zero, bind_eq_ok] at h
    obtain ⟨⟨x, s⟩, hx, heq⟩ := h
    obtain ⟨rfl, rfl⟩ := Prod.mk.inj (pure_eq_ok.1 heq)
    exact one hx
  | succ n ih =>
    intro input xs h
    rw [separatedUpTo_succ, bind_eq_ok] at h
    obtain ⟨⟨x, s⟩, hx, hnext⟩ := h
    cases hseparator : separator s with
    | none =>
      simp only [hseparator] at hnext
      obtain ⟨rfl, rfl⟩ := Prod.mk.inj (pure_eq_ok.1 hnext)
      exact one hx
    | some t =>
      simp only [hseparator] at hnext
      obtain ⟨⟨ys, s'⟩, hys, heq⟩ := bind_eq_ok.1 hnext
      obtain ⟨rfl, rfl⟩ := Prod.mk.inj (pure_eq_ok.1 heq)
      exact more hx hseparator (ih _ _ hys)

/-- There is at least one item, and each was read by the reader of items. -/
theorem of_separated {input rest : List σ} {xs : List α}
    (h : separated item separator input = .ok (xs, rest)) :
    xs ≠ [] ∧ ∀ x ∈ xs, ∃ s s', item s = .ok (x, s') := by
  refine separated_induction
    (motive := fun _ xs _ => xs ≠ [] ∧ ∀ x ∈ xs, ∃ s s', item s = .ok (x, s')) ?_ ?_ h
  · intro input x rest hx
    exact ⟨List.cons_ne_nil _ _, List.forall_mem_singleton.2 ⟨_, _, hx⟩⟩
  · intro input x s t xs rest hx _ ih
    exact ⟨List.cons_ne_nil _ _, List.forall_mem_cons.2 ⟨⟨_, _, hx⟩, ih.2⟩⟩

theorem isSound_separated (hitem : item.IsSound isItem)
    (hseparator : ∀ {input rest}, separator input = some rest →
      ∃ t, input = t ++ rest ∧ isSeparator t) :
    (separated item separator).IsSound (Separated isSeparator isItem) := by
  intro input xs rest h
  refine separated_induction
    (motive := fun input xs rest => ∃ s, input = s ++ rest ∧ Separated isSeparator isItem s xs)
    ?_ ?_ h
  · intro input x rest hx
    obtain ⟨s, hinput, hs⟩ := hitem hx
    exact ⟨s, hinput, .one hs⟩
  · intro input x s t xs rest hx ht ih
    obtain ⟨u, rfl, hu⟩ := hitem hx
    obtain ⟨v, rfl, hv⟩ := hseparator ht
    obtain ⟨w, rfl, hw⟩ := ih
    exact ⟨u ++ (v ++ w), by simp, .more hu hv hw⟩

/-- A list is read to its end if nothing that comes next ends an item later or looks like a
    separator. -/
theorem separatedUpTo_eq_ok (hitem : item.IsComplete isItem ends)
    (hseparator : ∀ t rest, isSeparator t → separator (t ++ rest) = some rest)
    (hends : ∀ t rest, isSeparator t → ends (t ++ rest)) {s rest : List σ} {xs : List α}
    (h : Separated isSeparator isItem s xs) (hrest : ends rest) (hstop : separator rest = none)
    {more : Nat} (hmore : xs.length ≤ more + 1) :
    separatedUpTo item separator more (s ++ rest) = .ok (xs, rest) := by
  induction h generalizing more with
  | one hx =>
    cases more with
    | zero => rw [separatedUpTo_zero, hitem hx hrest]; rfl
    | succ more =>
      rw [separatedUpTo_succ, hitem hx hrest]
      show (match separator rest with
        | none => _
        | some _ => _) = _
      rw [hstop]
      rfl
  | @more s t s' x xs hx ht hs' ih =>
    cases more with
    | zero =>
      have hne := hs'.ne_nil
      have : 0 < xs.length := List.length_pos_iff.2 hne
      simp only [List.length_cons] at hmore
      omega
    | succ more =>
      have hnext : item (s ++ (t ++ s') ++ rest) = .ok (x, t ++ (s' ++ rest)) := by
        rw [List.append_assoc, List.append_assoc]
        exact hitem hx (hends t _ ht)
      rw [separatedUpTo_succ, hnext]
      show (match separator (t ++ (s' ++ rest)) with
        | none => _
        | some _ => _) = _
      rw [hseparator t _ ht]
      show separatedUpTo item separator more (s' ++ rest) >>= _ = _
      rw [ih (Nat.le_of_succ_le_succ hmore)]
      rfl

/-- Lists of items are read completely.  Separators take room, so that the bound on the number of
    items is never reached before the end. -/
theorem isComplete_separated (hitem : item.IsComplete isItem ends)
    (hne : ∀ t, isSeparator t → t ≠ [])
    (hseparator : ∀ t rest, isSeparator t → separator (t ++ rest) = some rest)
    (hends : ∀ t rest, isSeparator t → ends (t ++ rest)) :
    (separated item separator).IsComplete (Separated isSeparator isItem)
      (fun rest => ends rest ∧ separator rest = none) := by
  intro s xs rest h hrest
  have hlength : xs.length ≤ (s ++ rest).length + 1 := by
    have := h.length_le hne
    rw [List.length_append]
    omega
  exact separatedUpTo_eq_ok hitem hseparator hends h hrest.1 hrest.2 hlength

end separated

end Reader

end IsaCodec
