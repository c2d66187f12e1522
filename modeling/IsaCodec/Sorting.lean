/-! # Sorting

    Stable sorting by insertion, for short lists.  The relation `le` tells
    which of two items may come first; items that may come in either order
    keep theirs. -/

namespace IsaCodec

variable {α : Type}

/-- Puts an item in front of the first one that it may come before. -/
def insertSorted (le : α → α → Bool) (x : α) : List α → List α
  | [] => [x]
  | y :: ys => if le x y then x :: y :: ys else y :: insertSorted le x ys

/-- The items of a list in order. -/
def sortBy (le : α → α → Bool) (xs : List α) : List α :=
  xs.foldr (insertSorted le) []

@[simp] theorem sortBy_nil (le : α → α → Bool) : sortBy le [] = [] := rfl

@[simp] theorem sortBy_cons (le : α → α → Bool) (x : α) (xs : List α) :
    sortBy le (x :: xs) = insertSorted le x (sortBy le xs) := rfl

/-! ## Items -/

theorem insertSorted_perm (le : α → α → Bool) (x : α) (ys : List α) :
    (insertSorted le x ys).Perm (x :: ys) := by
  induction ys with
  | nil => exact List.Perm.refl _
  | cons y ys ih =>
    unfold insertSorted
    split
    · exact List.Perm.refl _
    · exact (ih.cons y).trans (List.Perm.swap x y ys)

theorem sortBy_perm (le : α → α → Bool) (xs : List α) : (sortBy le xs).Perm xs := by
  induction xs with
  | nil => exact List.Perm.refl _
  | cons x xs ih => exact (insertSorted_perm le x _).trans (ih.cons x)

/-! ## Images -/

section images

variable {β : Type} {f : α → β} {le : α → α → Bool} {le' : β → β → Bool}

theorem insertSorted_map (h : ∀ x y, le' (f x) (f y) = le x y) (x : α) (ys : List α) :
    insertSorted le' (f x) (ys.map f) = (insertSorted le x ys).map f := by
  induction ys with
  | nil => rfl
  | cons y ys ih =>
    rw [List.map_cons, insertSorted, insertSorted, h, ih]
    split
    · rfl
    · rfl

/-- Items may be sorted before or after they are replaced, if this leaves their order. -/
theorem sortBy_map (h : ∀ x y, le' (f x) (f y) = le x y) (xs : List α) :
    sortBy le' (xs.map f) = (sortBy le xs).map f := by
  induction xs with
  | nil => rfl
  | cons x xs ih => rw [List.map_cons, sortBy_cons, sortBy_cons, ih, insertSorted_map h]

end images

/-! ## Order -/

theorem pairwise_insertSorted {le : α → α → Bool}
    (transitive : ∀ x y z : α, le x y → le y z → le x z)
    (total : ∀ x y : α, le x y || le y x) (x : α) {ys : List α}
    (h : ys.Pairwise (fun a b => le a b)) : (insertSorted le x ys).Pairwise (fun a b => le a b) := by
  induction ys with
  | nil => simp [insertSorted]
  | cons y ys ih =>
    obtain ⟨hy, hys⟩ := List.pairwise_cons.1 h
    unfold insertSorted
    split
    · rename_i hxy
      refine List.pairwise_cons.2 ⟨fun z hz => ?_, h⟩
      rcases List.mem_cons.1 hz with rfl | hz
      · exact hxy
      · exact transitive x y z hxy (hy z hz)
    · rename_i hxy
      refine List.pairwise_cons.2 ⟨fun z hz => ?_, ih hys⟩
      rcases List.mem_cons.1 ((insertSorted_perm le x ys).mem_iff.1 hz) with rfl | hz
      · have := total y z
        simp_all
      · exact hy z hz

theorem pairwise_sortBy {le : α → α → Bool}
    (transitive : ∀ x y z : α, le x y → le y z → le x z)
    (total : ∀ x y : α, le x y || le y x) (xs : List α) :
    (sortBy le xs).Pairwise (fun a b => le a b) := by
  induction xs with
  | nil => simp
  | cons x xs ih => exact pairwise_insertSorted transitive total x ih

/-! ## Parts -/

section parts

variable {le : α → α → Bool} {keep : α → Bool} {x : α} {ys : List α}

end parts

end IsaCodec
