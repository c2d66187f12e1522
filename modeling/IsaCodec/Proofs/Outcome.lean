import Mathlib.Data.List.Forall2

/-! # Outcomes

    Compiling and reading are steps of which each may fail.  A sequence of
    steps has a result exactly if every step has one; what a step gives is
    taken apart with the lemmas of this module. -/

namespace IsaCodec

variable {ε ε' α β : Type}

theorem bind_eq_ok {first : Except ε α} {next : α → Except ε β} {result : β} :
    first >>= next = .ok result ↔ ∃ value, first = .ok value ∧ next value = .ok result := by
  cases first with
  | ok value =>
    show next value = .ok result ↔ _
    simp
  | error fault => exact ⟨(fun h => nomatch h), (fun ⟨_, h, _⟩ => nomatch h)⟩

theorem ok_bind (value : α) (next : α → Except ε β) : Except.ok value >>= next = next value := rfl

theorem pure_eq_ok {value result : α} : (pure value : Except ε α) = .ok result ↔ value = result :=
  ⟨fun h => Except.ok.inj h, fun h => by rw [h]; rfl⟩

theorem toOption_eq_some {outcome : Except ε α} {value : α} :
    outcome.toOption = some value ↔ outcome = .ok value := by
  cases outcome <;> simp [Except.toOption]

theorem exists_eq_ok {outcome : Except ε α} (h : outcome.toOption.isSome) :
    ∃ value, outcome = .ok value := by
  obtain ⟨value, hvalue⟩ := Option.isSome_iff_exists.1 h
  exact ⟨value, toOption_eq_some.1 hvalue⟩

theorem mapError_eq_ok {f : ε → ε'} {outcome : Except ε α} {value : α} :
    outcome.mapError f = .ok value ↔ outcome = .ok value := by
  cases outcome <;> simp [Except.mapError]

theorem map_eq_error {f : α → β} {outcome : Except ε α} {fault : ε} :
    outcome.map f = .error fault ↔ outcome = .error fault := by
  cases outcome <;> simp [Except.map]

/-- A step is made for each item of a list. -/
theorem mapM_eq_ok {f : α → Except ε β} {xs : List α} {ys : List β} :
    xs.mapM f = .ok ys ↔ List.Forall₂ (fun x y => f x = .ok y) xs ys := by
  induction xs generalizing ys with
  | nil =>
    rw [List.mapM_nil, pure_eq_ok, List.forall₂_nil_left_iff]
    exact eq_comm
  | cons x xs ih =>
    rw [List.mapM_cons, bind_eq_ok, List.forall₂_cons_left_iff]
    constructor
    · intro h
      obtain ⟨y, hy, hrest⟩ := h
      obtain ⟨ys', hys', heq⟩ := bind_eq_ok.1 hrest
      exact ⟨y, ys', hy, ih.1 hys', (pure_eq_ok.1 heq).symm⟩
    · intro h
      obtain ⟨y, ys', hy, hys', rfl⟩ := h
      exact ⟨y, hy, bind_eq_ok.2 ⟨ys', ih.2 hys', rfl⟩⟩

/-- Outcomes that are all values are one outcome with all values. -/
theorem mapM_id_map_ok (xs : List α) :
    (xs.map Except.ok).mapM id = (.ok xs : Except ε (List α)) := by
  rw [mapM_eq_ok, List.forall₂_map_left_iff, List.forall₂_same]
  exact fun _ _ => rfl

end IsaCodec
