/-! # Replacement in lists

    Some items of a list are picked out, something is computed for each of
    them, and the results are put back in their places. -/

namespace IsaCodec

/-- Replaces the items that pass a test, in order, by the items of another
    list; those for which it has no more items stay. -/
def replaceWhere {α : Type} (test : α → Bool) : List α → List α → List α
  | [], _ => []
  | x :: xs, replacements =>
    if test x then
      match replacements with
      | [] => x :: xs
      | y :: ys => y :: replaceWhere test xs ys
    else x :: replaceWhere test xs replacements

/-- The items of a list whose partners in another list pass a test. -/
def selectWhere {α β : Type} (test : β → Bool) : List α → List β → List α
  | x :: xs, y :: ys => if test y then x :: selectWhere test xs ys else selectWhere test xs ys
  | _, _ => []

/-- The selected items are those of the pairs whose second part passes. -/
theorem selectWhere_eq_map_filter {α β : Type} (test : β → Bool) (xs : List α) (ys : List β) :
    selectWhere test xs ys = ((xs.zip ys).filter fun p => test p.2).map (·.1) := by
  induction xs generalizing ys with
  | nil => simp [selectWhere]
  | cons x xs ih =>
    cases ys with
    | nil => simp [selectWhere]
    | cons y ys => by_cases hy : test y <;> simp [selectWhere, hy, ih]

/-- The test may look at the partners through a function. -/
theorem selectWhere_map {α β γ : Type} (test : γ → Bool) (g : β → γ) (xs : List α)
    (ys : List β) : selectWhere test xs (ys.map g) = selectWhere (fun y => test (g y)) xs ys := by
  simp only [selectWhere_eq_map_filter, List.zip_map_right, List.filter_map, List.map_map]
  rfl

end IsaCodec
