import IsaCodec.Proofs.Traced.Filter

/-! # Searches and filters

    A search for the first item and a filter make the same tests up to the
    first item that passes.  There the search stops, and the filter goes on
    with the rest of the list.  Both are made of this common part
    (`findRest?`), so what the two do is compared once and for all.

    * **`IsStartOf`** — what one computation does is the beginning of what
      another one does: its result is the first item, its calls come first,
      and a fault of it is a fault of the other.
    * **`find?_isStartOf_filter`** — a search is the start of the filter. -/

namespace IsaCodec.Traced

variable {ε α β : Type} {test : α → Traced ε Bool}

/-! ## The common part -/

/-- The first item that passes a test and the items after it, which are not tested. -/
def findRest? (test : α → Traced ε Bool) : List α → Traced ε (Option (α × List α))
  | [] => pure none
  | x :: xs => do
    if ← test x then pure (some (x, xs)) else findRest? test xs

/-- The search forgets the rest. -/
theorem find?_eq_findRest? (test : α → Traced ε Bool) (xs : List α) :
    find? test xs = findRest? test xs >>= fun found => pure (found.map Prod.fst) := by
  induction xs with
  | nil => rfl
  | cons x xs ih =>
    simp only [find?, findRest?, bind_assoc]
    apply bind_congr
    intro passed
    cases passed with
    | false => exact ih
    | true => rfl

/-- The filter goes on with the rest. -/
theorem filter_eq_findRest? (test : α → Traced ε Bool) (xs : List α) :
    filter test xs = findRest? test xs >>= fun found =>
      match found with
      | none => pure []
      | some (x, rest) => filter test rest >>= fun others => pure (x :: others) := by
  induction xs with
  | nil => rfl
  | cons x xs ih =>
    simp only [filter, findRest?, bind_assoc]
    apply bind_congr
    intro passed
    cases passed with
    | false =>
      show filter test xs >>= pure = findRest? test xs >>= _
      rw [bind_pure]
      exact ih
    | true => rfl

/-! ## Starts -/

/-- A computation of a first item that stops where another one, of all items, may go on. -/
structure IsStartOf (first : Traced ε (Option α)) (all : Traced ε (List α)) : Prop where
  /-- If all items are there, the first one is the result. -/
  ok : ∀ xs, all.outcome = .ok xs → first.outcome = .ok xs.head?
  /-- A fault is met by both or only after the first item. -/
  stopped : ∀ fault, all.outcome = .error fault →
    first.outcome = .error fault ∨ ∃ x, first.outcome = .ok (some x)
  error : ∀ fault, first.outcome = .error fault → all.outcome = .error fault
  calls : first.calls <+: all.calls

theorem isStartOf_of_findRest? {found : Traced ε (Option (α × List α))}
    {go : α → List α → Traced ε (List α)} :
    IsStartOf (found >>= fun found => pure (found.map Prod.fst))
      (found >>= fun found =>
        match found with
        | none => pure []
        | some (x, rest) => go x rest >>= fun others => pure (x :: others)) := by
  rcases exists_error_or_ok found with ⟨fault, h⟩ | ⟨pair?, h⟩
  · -- A test failed in the common part: both have this fault.
    rw [bind_of_error h, bind_of_error h]
    refine ⟨fun xs hxs => ?_, fun _ hfault => ?_, fun _ hfault => ?_, List.prefix_refl _⟩
    · cases hxs
    · obtain rfl := Except.error.inj hfault
      exact .inl rfl
    · obtain rfl := Except.error.inj hfault
      rfl
  · rw [bind_of_ok h, bind_of_ok h]
    cases pair? with
    | none =>
      refine ⟨fun xs hxs => ?_, fun _ hfault => ?_, fun _ hfault => ?_, List.prefix_refl _⟩
      · obtain rfl := Except.ok.inj hxs
        rfl
      · cases hfault
      · cases hfault
    | some pair =>
      obtain ⟨x, rest⟩ := pair
      -- The search is done; the other computation goes on, and may fail.
      refine ⟨fun xs hxs => ?_, fun _ _ => .inr ⟨x, rfl⟩, fun _ hfault => ?_, ?_⟩
      · obtain ⟨others, -, hothers⟩ := outcome_bind_eq_ok.1 hxs
        obtain rfl := Except.ok.inj hothers
        rfl
      · cases hfault
      · show found.calls ++ [] <+: found.calls ++ _
        rw [List.append_nil]
        exact List.prefix_append _ _

/-- **A search is the start of the filter** by the same test. -/
theorem find?_isStartOf_filter (test : α → Traced ε Bool) (xs : List α) :
    IsStartOf (find? test xs) (filter test xs) := by
  rw [find?_eq_findRest?, filter_eq_findRest?]
  exact isStartOf_of_findRest?

theorem calls_bind_pure (computation : Traced ε α) (f : α → β) :
    (computation >>= fun value => pure (f value)).calls = computation.calls := by
  rcases exists_error_or_ok computation with ⟨fault, h⟩ | ⟨value, h⟩
  · rw [bind_of_error h]
  · rw [bind_of_ok h]
    exact List.append_nil _

/-- Items may be replaced by others on both sides. -/
theorem IsStartOf.map {first : Traced ε (Option α)} {all : Traced ε (List α)}
    (h : IsStartOf first all) (f : α → β) :
    IsStartOf (first >>= fun x => pure (x.map f)) (all >>= fun xs => pure (xs.map f)) := by
  refine ⟨fun ys hys => ?_, fun fault hfault => ?_, fun fault hfault => ?_, ?_⟩
  · obtain ⟨xs, hxs, heq⟩ := outcome_bind_eq_ok.1 hys
    obtain rfl := Except.ok.inj heq
    rw [bind_of_ok (h.ok xs hxs), List.head?_map]
    rfl
  · rw [outcome_bind_pure_eq_error] at hfault
    rcases h.stopped fault hfault with herror | ⟨x, hx⟩
    · exact .inl (outcome_bind_pure_eq_error.2 herror)
    · rw [bind_of_ok hx]
      exact .inr ⟨f x, rfl⟩
  · rw [outcome_bind_pure_eq_error] at hfault ⊢
    exact h.error fault hfault
  · rw [calls_bind_pure, calls_bind_pure]
    exact h.calls

end IsaCodec.Traced
