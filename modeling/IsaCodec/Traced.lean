import IsaCodec.Instruction.Basic

/-! # Traced computations

    Conditions may call functions that their user supplies, and which calls
    are made, and in which order, is part of what an evaluation does.  A
    traced computation is its outcome together with the calls it made; the
    calls made before an error are kept. -/

namespace IsaCodec

/-- What a function may look at besides its argument. -/
structure Context where
  /-- The instruction whose condition is evaluated. -/
  instruction : Instruction
  /-- The code for which it is evaluated. -/
  code : Code

/-- One call of a registered function. -/
structure Call where
  /-- Name under which the function is registered. -/
  function : String
  argument : Code
  context : Context

/-- An outcome and the calls made on the way to it, in order. -/
structure Traced (ε α : Type) where
  calls : List Call
  outcome : Except ε α

namespace Traced

variable {ε ε' α β γ : Type}

/-- A value reached without any call. -/
protected def pure (value : α) : Traced ε α := ⟨[], .ok value⟩

/-- Goes on with the value, if there is one; an error ends the computation. -/
protected def bind (first : Traced ε α) (next : α → Traced ε β) : Traced ε β :=
  match first.outcome with
  | .ok value => ⟨first.calls ++ (next value).calls, (next value).outcome⟩
  | .error fault => ⟨first.calls, .error fault⟩

instance : Monad (Traced ε) where
  pure := Traced.pure
  bind := Traced.bind

/-- An error reached without any call. -/
def fail (fault : ε) : Traced ε α := ⟨[], .error fault⟩

/-- An outcome reached without any call. -/
def ofExcept (outcome : Except ε α) : Traced ε α := ⟨[], outcome⟩

/-- Records a call and gives its result. -/
def call (record : Call) (result : α) : Traced ε α := ⟨[record], .ok result⟩

/-- Rewords the error. -/
def mapError (f : ε → ε') (computation : Traced ε α) : Traced ε' α :=
  ⟨computation.calls, computation.outcome.mapError f⟩

/-! ## Laws -/

@[simp] theorem calls_pure (value : α) : (pure value : Traced ε α).calls = [] := rfl

@[simp] theorem outcome_pure (value : α) : (pure value : Traced ε α).outcome = .ok value := rfl

theorem bind_of_ok {first : Traced ε α} {value : α} (h : first.outcome = .ok value)
    (next : α → Traced ε β) :
    first >>= next = ⟨first.calls ++ (next value).calls, (next value).outcome⟩ := by
  change Traced.bind first next = _
  simp [Traced.bind, h]

theorem bind_of_error {first : Traced ε α} {fault : ε} (h : first.outcome = .error fault)
    (next : α → Traced ε β) : first >>= next = ⟨first.calls, .error fault⟩ := by
  change Traced.bind first next = _
  simp [Traced.bind, h]

theorem outcome_bind_eq_ok {first : Traced ε α} {next : α → Traced ε β} {result : β} :
    (first >>= next).outcome = .ok result ↔
      ∃ value, first.outcome = .ok value ∧ (next value).outcome = .ok result := by
  cases h : first.outcome with
  | ok value => simp [bind_of_ok h]
  | error fault => simp [bind_of_error h]

theorem outcome_bind_eq_error {first : Traced ε α} {next : α → Traced ε β} {fault : ε} :
    (first >>= next).outcome = .error fault ↔
      first.outcome = .error fault ∨
        ∃ value, first.outcome = .ok value ∧ (next value).outcome = .error fault := by
  cases h : first.outcome with
  | ok value => simp [bind_of_ok h]
  | error fault' => simp [bind_of_error h]

/-- Outcomes are the same if those of the first steps are, and those of the second ones after
    each value. -/
theorem outcome_bind_congr {first first' : Traced ε α} {next next' : α → Traced ε β}
    (hfirst : first.outcome = first'.outcome)
    (hnext : ∀ value, first.outcome = .ok value → (next value).outcome = (next' value).outcome) :
    (first >>= next).outcome = (first' >>= next').outcome := by
  cases h : first.outcome with
  | ok value => rw [bind_of_ok h, bind_of_ok (hfirst ▸ h)]; exact hnext value h
  | error fault => rw [bind_of_error h, bind_of_error (hfirst ▸ h)]

@[ext] theorem ext {a b : Traced ε α} (calls : a.calls = b.calls)
    (outcome : a.outcome = b.outcome) : a = b := by
  cases a; cases b; simp_all

@[simp] theorem pure_bind (value : α) (next : α → Traced ε β) :
    (pure value : Traced ε α) >>= next = next value := by
  rw [bind_of_ok (outcome_pure value)]; simp

@[simp] theorem bind_pure (computation : Traced ε α) : computation >>= pure = computation := by
  cases h : computation.outcome with
  | ok value => rw [bind_of_ok h]; ext1 <;> simp [h]
  | error fault => rw [bind_of_error h]; ext1 <;> simp [h]

theorem bind_assoc (first : Traced ε α) (next : α → Traced ε β) (last : β → Traced ε γ) :
    first >>= next >>= last = first >>= fun value => next value >>= last := by
  change Traced.bind (Traced.bind first next) last =
    Traced.bind first fun value => Traced.bind (next value) last
  cases h : first.outcome with
  | error fault => simp [Traced.bind, h]
  | ok value => cases h' : (next value).outcome <;> simp [Traced.bind, h, h']

instance : LawfulMonad (Traced ε) :=
  LawfulMonad.mk' _ bind_pure pure_bind bind_assoc

/-! ## Lists -/

/-- Computes an item for each item of a list, up to the first error. -/
def collect (f : α → Traced ε β) : List α → Traced ε (List β)
  | [] => pure []
  | x :: xs => do
    let y ← f x
    let ys ← collect f xs
    pure (y :: ys)

/-- Keeps the items that pass a test; the first error ends the computation. -/
def filter (test : α → Traced ε Bool) : List α → Traced ε (List α)
  | [] => pure []
  | x :: xs => do
    let passed ← test x
    let rest ← filter test xs
    pure (if passed then x :: rest else rest)

/-- Finds the first item that passes a test; no later item is tested. -/
def find? (test : α → Traced ε Bool) : List α → Traced ε (Option α)
  | [] => pure none
  | x :: xs => do
    if ← test x then pure (some x) else find? test xs

/-- Items are filtered by a plain test first. -/
theorem filter_filter (test : α → Traced ε Bool) (plain : α → Bool) (xs : List α) :
    filter test (xs.filter plain) =
      filter (fun x => if plain x then test x else pure false) xs := by
  induction xs with
  | nil => rfl
  | cons x xs ih =>
    by_cases hx : plain x
    · simp [filter, hx, ih]
    · simp [filter, hx, ih]

theorem filter_map (test : β → Traced ε Bool) (f : α → β) (xs : List α) :
    filter test (xs.map f) =
      filter (fun x => test (f x)) xs >>= fun passed => pure (passed.map f) := by
  induction xs with
  | nil => rfl
  | cons x xs ih =>
    simp only [List.map_cons, filter, ih, bind_assoc, pure_bind]
    refine bind_congr fun passed => bind_congr fun rest => ?_
    cases passed <;> rfl

theorem find?_filter (test : α → Traced ε Bool) (plain : α → Bool) (xs : List α) :
    find? test (xs.filter plain) =
      find? (fun x => if plain x then test x else pure false) xs := by
  induction xs with
  | nil => rfl
  | cons x xs ih =>
    by_cases hx : plain x
    · simp [find?, hx, ih]
    · simp [find?, hx, ih]

theorem find?_map (test : β → Traced ε Bool) (f : α → β) (xs : List α) :
    find? test (xs.map f) = find? (fun x => test (f x)) xs >>= fun found => pure (found.map f) := by
  induction xs with
  | nil => rfl
  | cons x xs ih =>
    simp only [List.map_cons, find?, bind_assoc]
    refine bind_congr fun passed => ?_
    cases passed
    · exact ih
    · rfl

/-- Runs all computations, also those after an error; the first error counts. -/
def all : List (Traced ε α) → Traced ε (List α)
  | [] => pure []
  | first :: rest =>
    let others := all rest
    { calls := first.calls ++ others.calls
      outcome := do
        let x ← first.outcome
        let xs ← others.outcome
        pure (x :: xs) }

end Traced

end IsaCodec
