import IsaCodec.Traced
import Mathlib.Data.List.Basic

/-! # Filtered lists

    Decoding filters lists of candidates by tests that call functions and may
    fail.  Filtering is compatible with taking lists apart and with building
    the items from others (`collect_filter`, `filter_filterMap`).  Whether it
    fails, and what it leaves, depends on the outcomes of the single tests
    only, not on the order in which they are made.

    * **`filter_eq_ok`** — there is a result exactly if no test fails, and the
      result is the plain filter by the answers.
    * **`exists_filter_eq_error`** — there is a fault exactly if a test fails.
    * **`outcome_find?_of_filter`** — the search for the first item agrees with
      a filter that does not fail.
    * **`exists_filter_eq_error_of_find?`** — a search that fails makes the
      filter fail, but a filter also fails because of later items. -/

namespace IsaCodec.Traced

variable {ε α β γ : Type} {test : α → Traced ε Bool} {xs ys : List α}

/-! ## Parts -/

theorem filter_append (test : α → Traced ε Bool) (xs ys : List α) :
    filter test (xs ++ ys) =
      filter test xs >>= fun front => filter test ys >>= fun back => pure (front ++ back) := by
  induction xs with
  | nil => simp [filter]
  | cons x xs ih =>
    simp only [List.cons_append, filter, ih, bind_assoc, pure_bind]
    refine bind_congr fun passed => bind_congr fun front => bind_congr fun back => ?_
    cases passed <;> rfl

theorem collect_congr {f g : α → Traced ε β} (h : ∀ x ∈ xs, f x = g x) :
    collect f xs = collect g xs := by
  induction xs with
  | nil => rfl
  | cons x xs ih =>
    rw [collect, collect, h x List.mem_cons_self,
      ih fun y hy => h y (List.mem_cons_of_mem x hy)]

/-- The parts of a list are filtered one after the other. -/
theorem collect_filter (test : β → Traced ε Bool) (f : α → List β) (xs : List α) :
    (collect (fun x => filter test (f x)) xs >>= fun parts => pure parts.flatten) =
      filter test (xs.flatMap f) := by
  induction xs with
  | nil => rfl
  | cons x xs ih =>
    rw [List.flatMap_cons, filter_append, ← ih]
    simp only [collect, bind_assoc, pure_bind, List.flatten_cons]

/-- A step that fails for none of the items may be made after they were collected. -/
theorem collect_bind_pure (f : α → Traced ε β) (g : β → γ) (xs : List α) :
    collect (fun x => f x >>= fun y => pure (g y)) xs =
      collect f xs >>= fun ys => pure (ys.map g) := by
  induction xs with
  | nil => rfl
  | cons x xs ih => simp only [collect, ih, bind_assoc, pure_bind, List.map_cons]

/-- Items are built from others, some of which give none.  Those that give none do not pass. -/
theorem filter_filterMap (test : β → Traced ε Bool) {build : α → Option β} {g : α → Option γ}
    {k : β → γ} (hg : ∀ x y, build x = some y → g x = some (k y)) (xs : List α) :
    (filter (fun x => (build x).elim (pure false) test) xs >>= fun passed =>
        pure (passed.filterMap g)) =
      filter test (xs.filterMap build) >>= fun passed => pure (passed.map k) := by
  induction xs with
  | nil => rfl
  | cons x xs ih =>
    cases hx : build x with
    | none => simpa [filter, hx] using ih
    | some y =>
      simp only [List.filterMap_cons, filter, hx, Option.elim_some, bind_assoc, pure_bind]
      refine bind_congr fun passed => ?_
      cases passed with
      | false => exact ih
      | true =>
        -- The first item comes in front of the same items on both sides.
        have hcons := congrArg (· >>= fun zs => pure (k y :: zs)) ih
        simpa [bind_assoc, hg x y hx] using hcons

/-! ## Outcomes -/

/-- Does a test hold?  One that fails does not. -/
def holds (answer : Traced ε Bool) : Bool :=
  match answer.outcome with
  | .ok passed => passed
  | .error _ => false

theorem holds_of_ok {answer : Traced ε Bool} {passed : Bool} (h : answer.outcome = .ok passed) :
    answer.holds = passed := by
  rw [holds, h]

/-- **Results** of a filter. -/
theorem filter_eq_ok :
    (filter test xs).outcome = .ok ys ↔
      (∀ x ∈ xs, ∃ passed, (test x).outcome = .ok passed) ∧
        ys = xs.filter fun x => (test x).holds := by
  induction xs generalizing ys with
  | nil => simp [filter, eq_comm]
  | cons x xs ih =>
    rw [filter, outcome_bind_eq_ok]
    simp only [outcome_bind_eq_ok, ih, outcome_pure, Except.ok.injEq, List.forall_mem_cons]
    constructor
    · intro h
      obtain ⟨passed, hx, rest, ⟨hxs, rfl⟩, rfl⟩ := h
      refine ⟨⟨⟨passed, hx⟩, hxs⟩, ?_⟩
      rw [List.filter_cons, holds_of_ok hx]
    · intro h
      obtain ⟨⟨⟨passed, hx⟩, hxs⟩, rfl⟩ := h
      refine ⟨passed, hx, _, ⟨hxs, rfl⟩, ?_⟩
      rw [List.filter_cons, holds_of_ok hx]

/-- A value that is made from a result fails with it. -/
theorem outcome_bind_pure_eq_error {first : Traced ε α} {f : α → β} {fault : ε} :
    (first >>= fun value => pure (f value)).outcome = .error fault ↔
      first.outcome = .error fault := by
  rw [outcome_bind_eq_error]
  simp

/-- An outcome is a fault or a result. -/
theorem exists_error_or_ok (computation : Traced ε α) :
    (∃ fault, computation.outcome = .error fault) ∨ ∃ value, computation.outcome = .ok value := by
  cases computation.outcome with
  | error fault => exact .inl ⟨fault, rfl⟩
  | ok value => exact .inr ⟨value, rfl⟩

/-- **Faults** of a filter. -/
theorem exists_filter_eq_error :
    (∃ fault, (filter test xs).outcome = .error fault) ↔
      ∃ x ∈ xs, ∃ fault, (test x).outcome = .error fault := by
  induction xs with
  | nil => simp [filter]
  | cons x xs ih =>
    simp only [filter, outcome_bind_eq_error, outcome_pure, reduceCtorEq, and_false, exists_false,
      or_false, List.exists_mem_cons_iff, ← ih]
    constructor
    · intro h
      obtain ⟨fault, hx | ⟨passed, -, hxs⟩⟩ := h
      · exact .inl ⟨fault, hx⟩
      · exact .inr ⟨fault, hxs⟩
    · intro h
      rcases h with ⟨fault, hx⟩ | ⟨fault, hxs⟩
      · exact ⟨fault, .inl hx⟩
      · rcases exists_error_or_ok (test x) with ⟨fault', hx⟩ | ⟨passed, hx⟩
        · exact ⟨fault', .inl hx⟩
        · exact ⟨fault, .inr ⟨passed, hx, hxs⟩⟩

/-! ## First items -/

theorem outcome_find?_of_filter (h : (filter test xs).outcome = .ok ys) :
    (find? test xs).outcome = .ok ys.head? := by
  obtain ⟨hxs, rfl⟩ := filter_eq_ok.1 h
  clear h
  induction xs with
  | nil => rfl
  | cons x xs ih =>
    obtain ⟨⟨passed, hx⟩, hxs⟩ := List.forall_mem_cons.1 hxs
    rw [find?, bind_of_ok hx, List.filter_cons, holds_of_ok hx]
    cases passed with
    | false => exact ih hxs
    | true => rfl

theorem exists_filter_eq_error_of_find? {fault : ε} (h : (find? test xs).outcome = .error fault) :
    ∃ fault, (filter test xs).outcome = .error fault := by
  rcases exists_error_or_ok (filter test xs) with herror | ⟨ys, hys⟩
  · exact herror
  · rw [outcome_find?_of_filter hys] at h
    exact nomatch h

end IsaCodec.Traced
