import IsaCodec.Proofs.DecisionTree.Representation
import IsaCodec.Proofs.Decoder.LinearScan
import Mathlib.Data.List.Perm.Basic

/-! # Trees of decoders

    A decoder has a tree for each form, in ascending order.  Each tree
    represents the indices of the instructions of its form, and every
    instruction has a form, so all trees together list every index once
    (`perm_flatMap_listed`).  An index that is listed once is listed by one
    leaf of one tree. -/

namespace IsaCodec

open scoped List

/-- What occurs once in the joined parts of a list occurs in one of the parts, and once there. -/
theorem exists_filter_eq_singleton {α β : Type} [DecidableEq β] {f : α → List β} {xs : List α}
    {b : β} (h : (xs.flatMap f).count b = 1) :
    ∃ x ∈ xs, (f x).count b = 1 ∧ xs.filter (fun x => b ∈ f x) = [x] := by
  induction xs with
  | nil => simp at h
  | cons x xs ih =>
    rw [List.flatMap_cons, List.count_append] at h
    by_cases hx : b ∈ f x
    · -- The rest of the list has no part with the item.
      have hpos : 0 < (f x).count b := List.count_pos_iff.2 hx
      have hrest : b ∉ xs.flatMap f := List.count_eq_zero.1 (by omega)
      refine ⟨x, List.mem_cons_self, by omega, ?_⟩
      rw [List.filter_cons_of_pos (by simpa using hx), List.cons_eq_cons]
      refine ⟨rfl, List.filter_eq_nil_iff.2 fun y hy hb => hrest ?_⟩
      exact List.mem_flatMap.2 ⟨y, hy, by simpa using hb⟩
    · have hzero : (f x).count b = 0 := List.count_eq_zero.2 hx
      obtain ⟨y, hy, hcount, hfilter⟩ := ih (by omega)
      refine ⟨y, List.mem_cons_of_mem x hy, hcount, ?_⟩
      rw [List.filter_cons_of_neg (by simpa using hx), hfilter]

namespace Decoder

/-- The trees of a decoder share its instructions out by their forms. -/
structure SharesOut (decoder : Decoder) : Prop where
  ascending : decoder.trees.Pairwise fun a b => a.form < b.form
  represents : ∀ tree ∈ decoder.trees,
    tree.Represents (Instruction.fixedAt decoder.instructions) decoder.options.splitWildcards
      (indicesOf tree.form decoder.instructions)
  /-- One leaf of one tree lists the index of an instruction, and the tree has its form. -/
  unique : ∀ i instruction, decoder.instructions[i]? = some instruction →
    ∃ tree leaf, decoder.trees.filter (fun tree => i ∈ tree.root.listed) = [tree] ∧
      tree.form = instruction.form ∧
      tree.root.leaves.filter (fun leaf => i ∈ leaf.instructions) = [leaf] ∧
      leaf.instructions.count i = 1

variable {split : Bool} {instructions : List Instruction}

theorem pairwise_form_buildTrees :
    (buildTrees split instructions).Pairwise fun a b => a.form < b.form := by
  unfold buildTrees
  rw [List.pairwise_map]
  exact Ascending.pairwise_ofList Form.lt_trans (fun _ _ => Form.eq_of_not_lt) _

theorem represents_of_mem_buildTrees {tree : DecisionTree}
    (h : tree ∈ buildTrees split instructions) :
    tree.Represents (Instruction.fixedAt instructions) split
      (indicesOf tree.form instructions) := by
  obtain ⟨form, -, rfl⟩ := List.mem_map.1 h
  exact DecisionTree.represents_build form (indicesOf form instructions)

/-- The forms divide the indices of all instructions. -/
theorem perm_flatMap_indicesOf :
    (Ascending.ofList (instructions.map (·.form))).flatMap (indicesOf · instructions) ~
      List.range instructions.length := by
  have hnodup : (Ascending.ofList (instructions.map (·.form))).Nodup :=
    (Ascending.pairwise_ofList Form.lt_trans (fun _ _ => Form.eq_of_not_lt) _).imp
      fun hlt heq => by simp [heq, Form.lt_iff] at hlt
  have hcover : ∀ p ∈ instructions.zipIdx,
      p.1.form ∈ Ascending.ofList (instructions.map (·.form)) := fun p hp =>
    mem_ofList_forms.2 ⟨p.1, List.mem_of_getElem? (List.mem_zipIdx_iff_getElem?.1 hp), rfl⟩
  have hperm := (perm_flatMap_filter (fun p : Instruction × Nat => p.1.form) hnodup hcover).map
    Prod.snd
  rw [List.map_flatMap, List.zipIdx_map_snd, ← List.range_eq_range'] at hperm
  exact hperm

/-- **All trees together** list every index once. -/
theorem perm_flatMap_listed :
    (buildTrees split instructions).flatMap (·.root.listed) ~
      List.range instructions.length := by
  unfold buildTrees
  rw [List.flatMap_map]
  refine (List.Perm.flatMap_left _ fun form _ => ?_).trans perm_flatMap_indicesOf
  exact Node.perm_listed_build _ _ _

theorem sharesOut_ofInstructions (options : Options) (registry : Registry)
    (description : Description) (instructions : List Instruction) :
    (ofInstructions options registry description instructions).SharesOut where
  ascending := pairwise_form_buildTrees
  represents _ htree := represents_of_mem_buildTrees htree
  unique i instruction hi := by
    have honce : ((buildTrees options.splitWildcards instructions).flatMap
        (·.root.listed)).count i = 1 := by
      obtain ⟨hlt, -⟩ := List.getElem?_eq_some_iff.1 hi
      rw [perm_flatMap_listed.count_eq]
      exact List.count_eq_one_of_mem List.nodup_range (List.mem_range.2 hlt)
    obtain ⟨tree, htree, hcount, hunique⟩ := exists_filter_eq_singleton honce
    obtain ⟨leaf, -, hleaf, hleaves⟩ := exists_filter_eq_singleton hcount
    refine ⟨tree, leaf, hunique, ?_, hleaves, hleaf⟩
    -- The tree lists indices of its own form only.
    have hlisted : i ∈ tree.root.listed := List.count_pos_iff.1 (by omega)
    rw [(represents_of_mem_buildTrees htree).listed.mem_iff, mem_indicesOf] at hlisted
    obtain ⟨instruction', hi', hform⟩ := hlisted
    rw [← hform, Option.some.inj (hi.symm.trans hi')]

/-- **Representation**: a tree that is built for some instructions represents their indices,
    whatever their form and the order of the indices.  The trees of a decoder that was built share
    its instructions out by their forms. -/
theorem trees_represent :
    (∀ form instructions split indices,
      (DecisionTree.ofInstructions form instructions split indices).form = form ∧
      (DecisionTree.ofInstructions form instructions split indices).Represents
        (Instruction.fixedAt instructions) split indices) ∧
    ∀ {options registry hook description decoder},
      buildHooked options registry hook description = .ok decoder → decoder.SharesOut := by
  constructor
  · intro form instructions split indices
    exact ⟨rfl, DecisionTree.represents_build form indices⟩
  · intro options registry hook description decoder hbuild
    obtain ⟨instructions, -, rfl⟩ := buildHooked_eq_ok.1 hbuild
    exact sharesOut_ofInstructions options registry description instructions

/-- Push and add share a tree of two elements, and each is the only instruction of its leaf. -/
theorem trees_represent_thumb :
    ∃ decoder, buildHooked {} Sample.registry numbered Sample.thumb = .ok decoder ∧
      decoder.trees.map (fun tree => (tree.form, tree.root.leaves.map (·.instructions))) =
        [(⟨16, 1⟩, [[3], [2]]), (⟨16, 2⟩, [[1], [0]])] ∧
      decoder.SharesOut := by
  have hvalues : (buildHooked {} Sample.registry numbered Sample.thumb).toOption.map
      (fun decoder => decoder.trees.map fun tree =>
        (tree.form, tree.root.leaves.map (·.instructions))) =
      some [(⟨16, 1⟩, [[3], [2]]), (⟨16, 2⟩, [[1], [0]])] := by
    decide +kernel
  obtain ⟨decoder, hdecoder, hvalues⟩ := Option.map_eq_some_iff.1 hvalues
  have hbuild := toOption_eq_some.1 hdecoder
  exact ⟨decoder, hbuild, hvalues, trees_represent.2 hbuild⟩

end Decoder

end IsaCodec
