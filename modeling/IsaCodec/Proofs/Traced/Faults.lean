import IsaCodec.Proofs.Traced.Lanes

/-! # Faults of computations

    Which faults a computation can meet follows from its parts: a sequence of
    steps meets the faults of its steps, and a computation over a list those
    of its items.  So it is enough to know what the first steps can meet.

    * **`FailsOnly`** — every fault of a computation is of an allowed kind.
    * **Composition** — one lemma for each way in which computations are put
      together.
    * **`FailsOnly.exists_ok`** — a computation for which no fault is allowed
      has a result. -/

namespace IsaCodec.Traced

variable {ε ε' α β : Type} {allowed : ε → Prop}

/-- Every fault of the computation is allowed. -/
def FailsOnly (allowed : ε → Prop) (computation : Traced ε α) : Prop :=
  ∀ fault, computation.outcome = .error fault → allowed fault

/-! ## Steps -/

theorem failsOnly_pure (value : α) : FailsOnly allowed (pure value : Traced ε α) := by
  intro fault h
  rw [outcome_pure] at h
  cases h

theorem failsOnly_ofExcept {outcome : Except ε α}
    (h : ∀ fault, outcome = .error fault → allowed fault) :
    FailsOnly allowed (ofExcept outcome) := h

/-- A call that is made gives a value. -/
theorem failsOnly_call (record : Call) (result : α) :
    FailsOnly allowed (call record result : Traced ε α) := by
  intro fault h
  cases h

/-- The second step is made only with a value of the first one. -/
theorem FailsOnly.bind {first : Traced ε α} {next : α → Traced ε β}
    (hfirst : FailsOnly allowed first)
    (hnext : ∀ value, first.outcome = .ok value → FailsOnly allowed (next value)) :
    FailsOnly allowed (first >>= next) := by
  intro fault h
  rcases outcome_bind_eq_error.1 h with hfault | ⟨value, hvalue, hfault⟩
  · exact hfirst fault hfault
  · exact hnext value hvalue fault hfault

/-- More faults may be allowed. -/
theorem FailsOnly.imp {allowed' : ε → Prop} {computation : Traced ε α}
    (h : FailsOnly allowed computation) (himp : ∀ fault, allowed fault → allowed' fault) :
    FailsOnly allowed' computation :=
  fun fault hfault => himp fault (h fault hfault)

/-- Errors that are reworded come from errors of the computation. -/
theorem FailsOnly.mapError {allowed' : ε' → Prop} {f : ε → ε'} {computation : Traced ε α}
    (h : FailsOnly allowed computation) (himp : ∀ fault, allowed fault → allowed' (f fault)) :
    FailsOnly allowed' (computation.mapError f) := by
  intro fault' hfault'
  unfold Traced.mapError at hfault'
  cases houtcome : computation.outcome with
  | ok value => simp [houtcome, Except.mapError] at hfault'
  | error fault =>
    simp only [houtcome, Except.mapError, Except.error.injEq] at hfault'
    exact hfault' ▸ himp fault (h fault houtcome)

/-- Without an allowed fault there is a **result**. -/
theorem FailsOnly.exists_ok {computation : Traced ε α} (h : FailsOnly allowed computation)
    (hnone : ∀ fault, ¬allowed fault) : ∃ value, computation.outcome = .ok value := by
  cases houtcome : computation.outcome with
  | ok value => exact ⟨value, rfl⟩
  | error fault => exact absurd (h fault houtcome) (hnone fault)

/-! ## Lists -/

section lists

variable {test : α → Traced ε Bool} {xs : List α}

theorem failsOnly_filter (h : ∀ x ∈ xs, FailsOnly allowed (test x)) :
    FailsOnly allowed (filter test xs) := by
  induction xs with
  | nil => exact failsOnly_pure []
  | cons x xs ih =>
    obtain ⟨hx, hxs⟩ := List.forall_mem_cons.1 h
    apply hx.bind
    intro passed _
    apply (ih hxs).bind
    intro rest _
    exact failsOnly_pure _

theorem failsOnly_find? (h : ∀ x ∈ xs, FailsOnly allowed (test x)) :
    FailsOnly allowed (find? test xs) := by
  induction xs with
  | nil => exact failsOnly_pure none
  | cons x xs ih =>
    obtain ⟨hx, hxs⟩ := List.forall_mem_cons.1 h
    apply hx.bind
    intro passed _
    -- The items after one that passes are not tested.
    cases passed with
    | false => exact ih hxs
    | true => exact failsOnly_pure (some x)

/-- A fault on lanes is the fault of some lane. -/
theorem OnLanes.failsOnly {f : α → Traced ε β} {lanes : Traced ε (List β)}
    (hlanes : OnLanes f xs lanes) (h : ∀ x ∈ xs, FailsOnly allowed (f x)) :
    FailsOnly allowed lanes := by
  intro fault hfault
  obtain ⟨x, hx, hx'⟩ := hlanes.faults hfault
  exact h x hx fault hx'

end lists

end IsaCodec.Traced
