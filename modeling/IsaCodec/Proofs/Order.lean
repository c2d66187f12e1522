import IsaCodec.Sorting
import Mathlib.Data.List.Sort

/-! # Lists in the order of a number

    The results of lookups are listed in the order in which their
    instructions are declared.  A list that is strictly ascending by some
    number is given by its members alone, and so is the result of sorting by
    that number; parts of a list that are formed by a key make up the whole
    list again. -/

namespace IsaCodec

open scoped List

variable {α κ : Type}

/-- Strictly ascending lists with the same members are equal. -/
theorem eq_of_mem_iff_of_ascending (number : α → Nat) {xs ys : List α}
    (hxs : xs.Pairwise fun a b => number a < number b)
    (hys : ys.Pairwise fun a b => number a < number b) (h : ∀ a, a ∈ xs ↔ a ∈ ys) : xs = ys := by
  have : Std.Irrefl fun a b => number a < number b := ⟨fun a => Nat.lt_irrefl (number a)⟩
  have : Std.Antisymm fun a b => number a < number b :=
    ⟨fun a b hab hba => absurd hba (Nat.lt_asymm hab)⟩
  exact hxs.eq_of_mem_iff hys h

theorem transitive_of_number (number : α → Nat) (a b c : α) :
    decide (number a ≤ number b) → decide (number b ≤ number c) → decide (number a ≤ number c) := by
  simp only [decide_eq_true_eq]
  omega

theorem total_of_number (number : α → Nat) (a b : α) :
    decide (number a ≤ number b) || decide (number b ≤ number a) := by
  simp only [Bool.or_eq_true, decide_eq_true_eq]
  omega

/-- Sorting brings the items of a strictly ascending list into the order of that list. -/
theorem sortBy_eq_of_perm {number : α → Nat} {xs ys : List α} (hperm : xs ~ ys)
    (hys : ys.Pairwise fun a b => number a < number b) :
    sortBy (fun a b => number a ≤ number b) xs = ys := by
  have hsorted : sortBy (fun a b => number a ≤ number b) xs ~ ys :=
    (sortBy_perm _ xs).trans hperm
  have hle : ys.Pairwise fun a b => number a ≤ number b := hys.imp Nat.le_of_lt
  refine List.Perm.eq_of_pairwise ?_ ?_ hle hsorted
  · intro a b ha hb hab hba
    have hnodup : (ys.map number).Nodup := by
      rw [List.nodup_iff_pairwise_ne, List.pairwise_map]
      exact hys.imp Nat.ne_of_lt
    exact List.inj_on_of_nodup_map hnodup (hsorted.mem_iff.1 ha) hb (Nat.le_antisymm hab hba)
  · exact (pairwise_sortBy (transitive_of_number number) (total_of_number number) xs).imp
      fun h => of_decide_eq_true h

/-- The items of a list, taken key by key, are the items of the list. -/
theorem perm_flatMap_filter [DecidableEq κ] (key : α → κ) {keys : List κ} {xs : List α}
    (hkeys : keys.Nodup) (hcover : ∀ x ∈ xs, key x ∈ keys) :
    (keys.flatMap fun k => xs.filter fun x => key x == k) ~ xs := by
  induction keys generalizing xs with
  | nil =>
    cases xs with
    | nil => exact .refl _
    | cons x xs => simpa using hcover x
  | cons k keys ih =>
    obtain ⟨hk, hkeys⟩ := List.nodup_cons.1 hkeys
    -- The other keys divide what is left without the items of the first one.
    have hrest : (keys.flatMap fun k' => xs.filter fun x => key x == k') =
        keys.flatMap fun k' => (xs.filter fun x => !(key x == k)).filter fun x => key x == k' := by
      refine List.flatMap_congr fun k' hk' => ?_
      rw [List.filter_filter]
      refine List.filter_congr fun x _ => ?_
      have : k ≠ k' := fun heq => hk (heq ▸ hk')
      grind
    rw [List.flatMap_cons, hrest]
    refine ((ih hkeys fun x hx => ?_).append_left _).trans (List.filter_append_perm _ xs)
    obtain ⟨hx, hne⟩ := List.mem_filter.1 hx
    exact (List.mem_cons.1 (hcover x hx)).resolve_left (by simpa using hne)

end IsaCodec
