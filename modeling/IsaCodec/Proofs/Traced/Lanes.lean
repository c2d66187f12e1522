import IsaCodec.Replacement
import IsaCodec.Traced
import Mathlib.Data.List.Forall2
import Mathlib.Data.List.Perm.Basic

/-! # Computations on lanes

    A computation may be done for many items, the lanes, at once instead of
    for one after the other.  The order of its calls is then another one, and
    of several faults it may meet another one first.  Apart from that the two
    ways agree, and this module says what that means and how it is shown.

    * **`OnLanes`** — the joint computation gives the value of each lane, it
      makes the calls of all lanes, and a fault of it is a fault of some lane.
    * **Composition** — agreement of the parts of a computation gives
      agreement of the whole: one step after another (`OnLanes.bind`), a step
      on those lanes only that a test picks out (`OnLanes.refine`), pieces of
      the list of lanes on their own (`onLanes_all`). -/

open scoped List

namespace IsaCodec.Traced

variable {ε α β γ δ : Type}

/-- The computation `lanes` does for all items of a list what `f` does for one. -/
structure OnLanes (f : α → Traced ε β) (xs : List α) (lanes : Traced ε (List β)) : Prop where
  /-- A result holds the value of each lane. -/
  values : ∀ {ys}, lanes.outcome = .ok ys →
    List.Forall₂ (fun x y => (f x).outcome = .ok y) xs ys
  /-- With a result, the calls are those of all lanes, in some order. -/
  calls : ∀ {ys}, lanes.outcome = .ok ys →
    lanes.calls.Perm (xs.flatMap fun x => (f x).calls)
  /-- A fault is the fault of some lane. -/
  faults : ∀ {fault}, lanes.outcome = .error fault →
    ∃ x ∈ xs, (f x).outcome = .error fault

/-! ## What agreement gives -/

namespace OnLanes

variable {f : α → Traced ε β} {xs : List α} {lanes : Traced ε (List β)}

theorem length_eq (h : OnLanes f xs lanes) {ys : List β} (hys : lanes.outcome = .ok ys) :
    ys.length = xs.length :=
  (h.values hys).length_eq.symm

theorem map_outcome (h : OnLanes f xs lanes) {ys : List β} (hys : lanes.outcome = .ok ys) :
    xs.map (fun x => (f x).outcome) = ys.map .ok := by
  have hvalues := h.values hys
  clear hys h
  induction hvalues with
  | nil => rfl
  | cons hxy _ ih => simp only [List.map_cons, hxy, ih]

/-- There is a result exactly if every lane has a value. -/
theorem ok_iff (h : OnLanes f xs lanes) :
    (∃ ys, lanes.outcome = .ok ys) ↔ ∀ x ∈ xs, ∃ y, (f x).outcome = .ok y := by
  constructor
  · intro h x hx
    obtain ⟨ys, hys⟩ := h
    have hmem : (f x).outcome ∈ ys.map .ok :=
      h.map_outcome hys ▸ List.mem_map_of_mem hx
    obtain ⟨y, -, hy⟩ := List.mem_map.1 hmem
    exact ⟨y, hy.symm⟩
  · intro hall
    cases hlanes : lanes.outcome with
    | ok ys => exact ⟨ys, rfl⟩
    | error fault =>
      obtain ⟨x, hx, hfault⟩ := h.faults hlanes
      obtain ⟨y, hy⟩ := hall x hx
      simp [hfault] at hy

/-- There is a fault exactly if some lane has one. -/
theorem error_iff (h : OnLanes f xs lanes) :
    (∃ fault, lanes.outcome = .error fault) ↔ ∃ x ∈ xs, ∃ fault, (f x).outcome = .error fault := by
  constructor
  · intro h
    obtain ⟨fault, hfault⟩ := h
    obtain ⟨x, hx, hx'⟩ := h.faults hfault
    exact ⟨x, hx, fault, hx'⟩
  · intro h
    obtain ⟨x, hx, fault, hfault⟩ := h
    cases hlanes : lanes.outcome with
    | error fault => exact ⟨fault, rfl⟩
    | ok ys =>
      obtain ⟨y, hy⟩ := h.ok_iff.1 ⟨ys, hlanes⟩ x hx
      simp [hfault] at hy

end OnLanes

/-! ## Single steps -/

theorem onLanes_pure (g : α → β) (xs : List α) :
    OnLanes (ε := ε) (fun x => pure (g x)) xs (pure (xs.map g)) where
  values h := by
    obtain rfl := Except.ok.inj h
    induction xs with
    | nil => exact .nil
    | cons x xs ih => exact .cons rfl (ih rfl)
  calls _ := by simp
  faults h := by cases h

/-- Lanes may be named by other items. -/
theorem onLanes_map {f : α → Traced ε β} {h : γ → α} {xs : List γ} {lanes : Traced ε (List β)} :
    OnLanes f (xs.map h) lanes ↔ OnLanes (fun x => f (h x)) xs lanes := by
  constructor
  · intro hlanes
    refine ⟨fun hys => ?_, fun hys => ?_, fun hfault => ?_⟩
    · exact List.forall₂_map_left_iff.1 (hlanes.values hys)
    · simpa [List.flatMap_map] using hlanes.calls hys
    · simpa using hlanes.faults hfault
  · intro hlanes
    refine ⟨fun hys => ?_, fun hys => ?_, fun hfault => ?_⟩
    · exact List.forall₂_map_left_iff.2 (hlanes.values hys)
    · simpa [List.flatMap_map] using hlanes.calls hys
    · simpa using hlanes.faults hfault

theorem OnLanes.congr {f g : α → Traced ε β} {xs : List α} {lanes : Traced ε (List β)}
    (h : OnLanes f xs lanes) (heq : ∀ x ∈ xs, f x = g x) : OnLanes g xs lanes := by
  refine ⟨fun hys => ?_, fun hys => ?_, fun hfault => ?_⟩
  · have hvalues := List.forall₂_iff_zip.1 (h.values hys)
    refine List.forall₂_iff_zip.2 ⟨hvalues.1, fun {x y} hxy => ?_⟩
    rw [← heq x (List.of_mem_zip hxy).1]
    exact hvalues.2 hxy
  · have hcalls : xs.flatMap (fun x => (f x).calls) = xs.flatMap fun x => (g x).calls :=
      List.flatMap_congr fun x hx => by rw [heq x hx]
    exact hcalls ▸ h.calls hys
  · obtain ⟨x, hx, hx'⟩ := h.faults hfault
    exact ⟨x, hx, heq x hx ▸ hx'⟩

/-! ## Steps in sequence -/

private theorem forall₂_of_forall₂_zip {R : α → β → Prop} {S : α × β → γ → Prop} {xs : List α}
    {ys : List β} {zs : List γ} (h : List.Forall₂ R xs ys) (h' : List.Forall₂ S (xs.zip ys) zs) :
    List.Forall₂ (fun x z => ∃ y, R x y ∧ S (x, y) z) xs zs := by
  induction h generalizing zs with
  | nil =>
    cases h'
    exact .nil
  | cons hxy _ ih =>
    cases h' with
    | cons hz hzs => exact .cons ⟨_, hxy, hz⟩ (ih hzs)

private theorem flatMap_fst_zip {xs : List α} {ys : List β} (h : xs.length = ys.length)
    (f : α → List γ) : (xs.zip ys).flatMap (fun p => f p.1) = xs.flatMap f := by
  rw [← List.flatMap_map Prod.fst f, List.map_fst_zip (Nat.le_of_eq h)]

/-- Each lane goes on with its own value. -/
theorem OnLanes.bind {f : α → Traced ε β} {g : α × β → Traced ε γ} {xs : List α}
    {first : Traced ε (List β)} {next : List β → Traced ε (List γ)} (hfirst : OnLanes f xs first)
    (hnext : ∀ ys, first.outcome = .ok ys → OnLanes g (xs.zip ys) (next ys)) :
    OnLanes (fun x => f x >>= fun y => g (x, y)) xs (first >>= next) := by
  cases h : first.outcome with
  | error fault =>
    rw [bind_of_error h]
    refine ⟨fun hys => by simp at hys, fun hys => by simp at hys, fun hfault => ?_⟩
    obtain ⟨x, hx, hx'⟩ := hfirst.faults h
    obtain rfl := Except.error.inj hfault
    exact ⟨x, hx, outcome_bind_eq_error.2 (.inl hx')⟩
  | ok ys =>
    rw [bind_of_ok h]
    have hrest := hnext ys h
    have hlength : xs.length = ys.length := (hfirst.length_eq h).symm
    have hpairs : ∀ p ∈ xs.zip ys, (f p.1).outcome = .ok p.2 := fun p hp =>
      (List.forall₂_iff_zip.1 (hfirst.values h)).2 hp
    refine ⟨fun {zs} hzs => ?_, fun {zs} hzs => ?_, fun hfault => ?_⟩
    · exact (forall₂_of_forall₂_zip (hfirst.values h) (hrest.values hzs)).imp
        fun x z hxz => outcome_bind_eq_ok.2 hxz
    · rw [← flatMap_fst_zip hlength fun x => (f x >>= fun y => g (x, y)).calls]
      calc first.calls ++ (next ys).calls
        _ ~ (xs.flatMap fun x => (f x).calls) ++ (xs.zip ys).flatMap fun p => (g p).calls :=
            (hfirst.calls h).append (hrest.calls hzs)
        _ = ((xs.zip ys).flatMap fun p => (f p.1).calls) ++
              (xs.zip ys).flatMap fun p => (g p).calls := by
            rw [flatMap_fst_zip hlength fun x => (f x).calls]
        _ ~ (xs.zip ys).flatMap fun p => (f p.1).calls ++ (g p).calls :=
            List.flatMap_append_perm _ _ _
        _ = (xs.zip ys).flatMap fun p => (f p.1 >>= fun y => g (p.1, y)).calls :=
            List.flatMap_congr fun p hp => by rw [bind_of_ok (hpairs p hp)]
    · obtain ⟨⟨x, y⟩, hxy, hfault'⟩ := hrest.faults hfault
      exact ⟨x, (List.of_mem_zip hxy).1,
        outcome_bind_eq_error.2 (.inr ⟨y, hpairs _ hxy, hfault'⟩)⟩

/-- A function is applied to the value of each lane. -/
theorem OnLanes.map {f : α → Traced ε β} {xs : List α} {lanes : Traced ε (List β)}
    (h : OnLanes f xs lanes) (g : β → γ) :
    OnLanes (fun x => f x >>= fun y => pure (g y)) xs (lanes >>= fun ys => pure (ys.map g)) := by
  refine h.bind (g := fun p => pure (g p.2)) fun ys hys => ?_
  have hmap : ys.map g = (xs.zip ys).map fun p => g p.2 := by
    conv_lhs => rw [← List.map_snd_zip (Nat.le_of_eq (h.length_eq hys)), List.map_map]
    rfl
  exact hmap ▸ onLanes_pure _ _

/-- Two computations are done for all lanes and the values of each lane are combined. -/
theorem OnLanes.zipWith {f : α → Traced ε β} {g : α → Traced ε γ} {xs : List α}
    {first : Traced ε (List β)} {second : Traced ε (List γ)} (hfirst : OnLanes f xs first)
    (hsecond : OnLanes g xs second) (combine : β → γ → δ) :
    OnLanes (fun x => f x >>= fun y => g x >>= fun z => pure (combine y z)) xs
      (first >>= fun ys => second >>= fun zs => pure (List.zipWith combine ys zs)) := by
  refine hfirst.bind (g := fun p => g p.1 >>= fun z => pure (combine p.2 z)) fun ys hys => ?_
  have hlength := hfirst.length_eq hys
  -- The second computation is the same for the pairs of a lane and its first value.
  have hpairs : OnLanes (fun p => g p.1) (xs.zip ys) second :=
    onLanes_map.1 (by rwa [List.map_fst_zip (Nat.le_of_eq hlength.symm)])
  refine hpairs.bind (g := fun p => pure (combine p.1.2 p.2)) fun zs _ => ?_
  have hmap : List.zipWith combine ys zs =
      ((xs.zip ys).zip zs).map fun p => combine p.1.2 p.2 := by
    conv_lhs => rw [← List.map_snd_zip (Nat.le_of_eq hlength)]
    rw [List.zipWith_map_left, List.map_zip_eq_zipWith]
    rfl
  exact hmap ▸ onLanes_pure _ _

/-- A lane in front is computed before the others. -/
theorem OnLanes.cons {f : α → Traced ε β} {x : α} {xs : List α} {lanes : Traced ε (List β)}
    (h : OnLanes f xs lanes) :
    OnLanes f (x :: xs) (f x >>= fun y => lanes >>= fun ys => pure (y :: ys)) := by
  refine ⟨fun hys => ?_, fun hys => ?_, fun hfault => ?_⟩
  · obtain ⟨y, hy, hrest⟩ := outcome_bind_eq_ok.1 hys
    obtain ⟨ys, hys', heq⟩ := outcome_bind_eq_ok.1 hrest
    obtain rfl := Except.ok.inj heq
    exact .cons hy (h.values hys')
  · obtain ⟨y, hy, hrest⟩ := outcome_bind_eq_ok.1 hys
    obtain ⟨ys, hys', -⟩ := outcome_bind_eq_ok.1 hrest
    rw [bind_of_ok hy, bind_of_ok hys']
    simpa using (h.calls hys').append_left (f x).calls
  · rcases outcome_bind_eq_error.1 hfault with hx | ⟨y, -, hrest⟩
    · exact ⟨x, List.mem_cons_self, hx⟩
    · rcases outcome_bind_eq_error.1 hrest with hlanes | ⟨ys, -, hpure⟩
      · obtain ⟨x', hx', hfault'⟩ := h.faults hlanes
        exact ⟨x', List.mem_cons_of_mem x hx', hfault'⟩
      · cases hpure

/-- The lanes one after the other. -/
theorem onLanes_collect (f : α → Traced ε β) (xs : List α) : OnLanes f xs (collect f xs) := by
  induction xs with
  | nil => exact ⟨fun h => by cases h; exact .nil, fun _ => .refl _, (fun h => nomatch h)⟩
  | cons x xs ih => exact ih.cons

/-- A step that is the same for all lanes is made once; if it fails, it fails for each of them. -/
theorem onLanes_ofExcept {outcome : Except ε α} {f : α → β → Traced ε γ} {xs : List β}
    {lanes : α → Traced ε (List γ)} (hxs : xs ≠ [])
    (h : ∀ value, outcome = .ok value → OnLanes (f value) xs (lanes value)) :
    OnLanes (fun x => ofExcept outcome >>= fun value => f value x) xs
      (ofExcept outcome >>= lanes) := by
  cases outcome with
  | ok value =>
    have hvalue : ∀ {δ} (next : α → Traced ε δ), ofExcept (.ok value) >>= next = next value :=
      fun next => pure_bind value next
    simpa only [hvalue] using h value rfl
  | error fault =>
    obtain ⟨x, hx⟩ := List.exists_mem_of_ne_nil xs hxs
    refine ⟨(fun hys => nomatch hys), (fun hys => nomatch hys), fun hfault => ?_⟩
    obtain rfl := Except.error.inj hfault
    exact ⟨x, hx, rfl⟩

/-- Without lanes there is nothing to compute. -/
theorem onLanes_of_ne_nil {f : α → Traced ε β} {xs : List α} {lanes : Traced ε (List β)}
    (h : xs ≠ [] → OnLanes f xs lanes) :
    OnLanes f xs (if xs.isEmpty then pure [] else lanes) := by
  cases xs with
  | nil => exact onLanes_collect f []
  | cons x xs => exact h (List.cons_ne_nil x xs)

/-! ## Steps on some lanes -/

private theorem forall₂_replaceWhere {R : α → β → Prop} {test : β → Bool} {xs : List α}
    {ys zs : List β} (hlength : xs.length = ys.length)
    (h : List.Forall₂ R (selectWhere test xs ys) zs) :
    List.Forall₂ (fun p z => if test p.2 then R p.1 z else p.2 = z) (xs.zip ys)
      (replaceWhere test ys zs) := by
  induction xs generalizing ys zs with
  | nil =>
    obtain rfl : ys = [] := List.eq_nil_of_length_eq_zero hlength.symm
    exact .nil
  | cons x xs ih =>
    cases ys with
    | nil => simp at hlength
    | cons y ys =>
      have hlength' : xs.length = ys.length := by simpa using hlength
      by_cases hy : test y
      · simp only [selectWhere, hy, if_true] at h
        cases h with
        | cons hz hzs =>
          simp only [List.zip_cons_cons, replaceWhere, hy, if_true]
          exact .cons (by simpa [hy] using hz) (ih hlength' hzs)
      · simp only [selectWhere, hy, Bool.false_eq_true, if_false] at h
        simp only [List.zip_cons_cons, replaceWhere, hy, Bool.false_eq_true, if_false]
        exact .cons (by simp [hy]) (ih hlength' h)

/-- The lanes whose value passes the test are computed, and the others keep their value. -/
theorem OnLanes.replace {f : α → Traced ε β} {test : β → Bool} {xs : List α} {ys : List β}
    {lanes : Traced ε (List β)} (hlength : xs.length = ys.length)
    (h : OnLanes f (selectWhere test xs ys) lanes) :
    OnLanes (fun p => if test p.2 then f p.1 else pure p.2) (xs.zip ys)
      (lanes >>= fun zs => pure (replaceWhere test ys zs)) := by
  refine ⟨fun hws => ?_, fun hws => ?_, fun hfault => ?_⟩
  · obtain ⟨zs, hzs, heq⟩ := outcome_bind_eq_ok.1 hws
    obtain rfl := Except.ok.inj heq
    refine (forall₂_replaceWhere hlength (h.values hzs)).imp fun p z hpz => ?_
    by_cases htest : test p.2
    · simpa [htest] using hpz
    · simpa [htest] using hpz
  · obtain ⟨zs, hzs, -⟩ := outcome_bind_eq_ok.1 hws
    rw [bind_of_ok hzs, calls_pure, List.append_nil]
    refine (h.calls hzs).trans (.of_eq ?_)
    rw [selectWhere_eq_map_filter, List.flatMap_map]
    generalize xs.zip ys = pairs
    induction pairs with
    | nil => rfl
    | cons p pairs ih => by_cases htest : test p.2 <;> simp [htest, ih]
  · rcases outcome_bind_eq_error.1 hfault with hlanes | ⟨zs, -, hpure⟩
    · obtain ⟨x, hx, hfault'⟩ := h.faults hlanes
      rw [selectWhere_eq_map_filter] at hx
      obtain ⟨p, hp, rfl⟩ := List.mem_map.1 hx
      obtain ⟨hzip, htest⟩ := List.mem_filter.1 hp
      exact ⟨p, hzip, by simpa [htest] using hfault'⟩
    · cases hpure

/-- A second computation replaces the values of those lanes whose value passes the test. -/
theorem OnLanes.refine {f g : α → Traced ε β} {xs : List α} {first : Traced ε (List β)}
    {next : List β → Traced ε (List β)} (hfirst : OnLanes f xs first) (test : β → Bool)
    (hnext : ∀ ys, first.outcome = .ok ys → OnLanes g (selectWhere test xs ys) (next ys)) :
    OnLanes (fun x => f x >>= fun y => if test y then g x else pure y) xs
      (first >>= fun ys => next ys >>= fun zs => pure (replaceWhere test ys zs)) :=
  hfirst.bind fun ys hys => (hnext ys hys).replace (hfirst.length_eq hys).symm

/-! ## Pieces -/

/-- Two lists of lanes are computed on their own, the second one also after a fault. -/
theorem OnLanes.append {f : α → Traced ε β} {xs xs' : List α} {lanes lanes' : Traced ε (List β)}
    (h : OnLanes f xs lanes) (h' : OnLanes f xs' lanes') :
    OnLanes f (xs ++ xs') ⟨lanes.calls ++ lanes'.calls,
      lanes.outcome >>= fun ys => lanes'.outcome >>= fun ys' => pure (ys ++ ys')⟩ := by
  cases hlanes : lanes.outcome with
  | error fault =>
    refine ⟨(fun hys => nomatch hys), (fun hys => nomatch hys), fun hfault => ?_⟩
    obtain rfl := Except.error.inj hfault
    obtain ⟨x, hx, hx'⟩ := h.faults hlanes
    exact ⟨x, List.mem_append_left _ hx, hx'⟩
  | ok ys =>
    cases hlanes' : lanes'.outcome with
    | error fault =>
      refine ⟨(fun hys => nomatch hys), (fun hys => nomatch hys), fun hfault => ?_⟩
      obtain rfl := Except.error.inj hfault
      obtain ⟨x, hx, hx'⟩ := h'.faults hlanes'
      exact ⟨x, List.mem_append_right _ hx, hx'⟩
    | ok ys' =>
      refine ⟨fun hys => ?_, fun hys => ?_, fun hfault => by cases hfault⟩
      · obtain rfl := Except.ok.inj hys
        exact List.rel_append (h.values hlanes) (h'.values hlanes')
      · rw [List.flatMap_append]
        exact (h.calls hlanes).append (h'.calls hlanes')

/-- The lanes are cut into pieces, and all pieces are computed. -/
theorem onLanes_all {f : α → Traced ε β} {run : List α → Traced ε (List β)}
    (hrun : ∀ xs, OnLanes f xs (run xs)) (pieces : List (List α)) :
    OnLanes f pieces.flatten (all (pieces.map run) >>= fun results => pure results.flatten) := by
  induction pieces with
  | nil => exact ⟨fun h => by cases h; exact .nil, fun _ => .refl _, (fun h => nomatch h)⟩
  | cons piece pieces ih =>
    have heq : (all ((piece :: pieces).map run) >>= fun results => pure results.flatten) =
        let others := all (pieces.map run) >>= fun results => pure results.flatten
        ⟨(run piece).calls ++ others.calls,
          (run piece).outcome >>= fun ys => others.outcome >>= fun zs => pure (ys ++ zs)⟩ := by
      cases hpiece : (run piece).outcome <;> cases hrest : (all (pieces.map run)).outcome <;>
        simp [all, hpiece, hrest, bind, Traced.bind, Except.bind, pure, Except.pure, Traced.pure]
    rw [heq]
    exact (hrun piece).append ih

end IsaCodec.Traced
