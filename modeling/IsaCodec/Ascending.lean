/-! # Ascending lists

    Finite sets as strictly ascending lists.  `insert` keeps such a list
    strictly ascending and adds nothing that is already there, so that
    `ofList` is the sorted list of the distinct items of a list. -/

namespace IsaCodec.Ascending

variable {α : Type} [LT α] [DecidableLT α]

/-- Puts `x` into its place in an ascending list, unless it is there already. -/
def insert (x : α) : List α → List α
  | [] => [x]
  | y :: ys =>
    if x < y then x :: y :: ys
    else if y < x then y :: insert x ys
    else y :: ys

/-- The distinct items of a list in ascending order. -/
def ofList (xs : List α) : List α :=
  xs.foldr insert []

/-! ## Members -/

@[simp] theorem ofList_nil : ofList ([] : List α) = [] := rfl

@[simp] theorem ofList_cons (x : α) (xs : List α) :
    ofList (x :: xs) = insert x (ofList xs) := rfl

/-- Items that are not comparable are equal. -/
abbrev Connected (α : Type) [LT α] : Prop :=
  ∀ x y : α, ¬x < y → ¬y < x → x = y

theorem mem_insert (connected : Connected α) {x z : α} {ys : List α} :
    z ∈ insert x ys ↔ z = x ∨ z ∈ ys := by
  induction ys with
  | nil => simp [insert]
  | cons y ys ih =>
    unfold insert
    split
    · simp
    · split
      · simp only [List.mem_cons, ih]; grind
      · rename_i h h'
        simp [connected x y h h']

theorem mem_ofList (connected : Connected α) {z : α} {xs : List α} :
    z ∈ ofList xs ↔ z ∈ xs := by
  induction xs with
  | nil => simp
  | cons x xs ih => simp [mem_insert connected, ih]

/-! ## Order -/

theorem pairwise_insert (transitive : ∀ {x y z : α}, x < y → y < z → x < z)
    (connected : Connected α) (x : α) {ys : List α} (h : ys.Pairwise (· < ·)) :
    (insert x ys).Pairwise (· < ·) := by
  induction ys with
  | nil => simp [insert]
  | cons y ys ih =>
    rw [List.pairwise_cons] at h
    unfold insert
    split
    · rename_i hxy
      simp only [List.pairwise_cons]
      refine ⟨fun z hz => ?_, h⟩
      rcases List.mem_cons.1 hz with rfl | hz
      · exact hxy
      · exact transitive hxy (h.1 z hz)
    · split
      · rename_i hyx
        rw [List.pairwise_cons]
        refine ⟨fun z hz => ?_, ih h.2⟩
        rcases (mem_insert connected).1 hz with rfl | hz
        · exact hyx
        · exact h.1 z hz
      · exact List.pairwise_cons.2 h

theorem pairwise_ofList (transitive : ∀ {x y z : α}, x < y → y < z → x < z)
    (connected : Connected α) (xs : List α) : (ofList xs).Pairwise (· < ·) := by
  induction xs with
  | nil => simp
  | cons x xs ih => exact pairwise_insert transitive connected x ih

end IsaCodec.Ascending
