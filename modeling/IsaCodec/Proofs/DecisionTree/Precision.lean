import IsaCodec.Proofs.DecisionTree.Representation
import IsaCodec.Proofs.Instruction.Assignment

/-! # Precision of decision trees

    If trees may be split by bits that only some instructions fix, then the
    leaves are as precise as fixed bits can be: what is left together in a
    leaf cannot be told apart by them.

    A leaf with two or more candidates has no discriminator, so none of the
    candidates fixes a bit that is still free.  On the bits that were looked at
    on the way to the leaf, the candidates agree with each other, since they
    came through the same branches (`Agreeing`), and a candidate that a lookup
    finds there agrees with the code.  So the instructions of a leaf fix the
    same bits to the same values (`fixed_eq_of_mem_leaves`), and a candidate
    that shares its leaf with others has the fixed bits
    (`isMatch_of_mem_collect_build`). -/

namespace IsaCodec

/-! ## Agreement -/

namespace FixedBits

variable {a b : FixedBits} {seen rest : Code}

/-- Of some bits, the same ones are fixed, and to the same values. -/
def AgreeOn (seen : Code) (a b : FixedBits) : Prop :=
  a.mask &&& seen = b.mask &&& seen ∧ a.bits &&& seen = b.bits &&& seen

/-- The same bits, fixed to the values that they have in a code. -/
def valuesIn (code : Code) (fixed : FixedBits) : FixedBits :=
  ⟨fixed.mask, code &&& fixed.mask⟩

theorem isCovered_iff {fixed : FixedBits} :
    fixed.isCovered ↔ ∀ i, fixed.bits.getLsbD i → fixed.mask.getLsbD i := by
  unfold isCovered
  rw [beq_iff_eq, BitVec.and_comm, Code.and_eq_zero_iff]
  refine forall_congr' fun i => imp_congr_right fun hi => ?_
  rw [BitVec.getLsbD_not, decide_eq_true (BitVec.lt_of_getLsbD hi), Bool.true_and,
    Bool.not_eq_false']

theorem mask_and_bits_of_isCovered {fixed : FixedBits} (h : fixed.isCovered) :
    fixed.mask &&& fixed.bits = fixed.bits :=
  Code.and_eq_right_iff.2 (isCovered_iff.1 h)

theorem isMatch_iff {fixed : FixedBits} {code : Code} :
    fixed.isMatch code ↔ fixed.valuesIn code = fixed := by
  unfold isMatch valuesIn
  rw [beq_iff_eq]
  constructor
  · intro h
    rw [h]
  · intro h
    exact congrArg FixedBits.bits h

theorem isCovered_valuesIn (code : Code) (fixed : FixedBits) :
    (fixed.valuesIn code).isCovered := by
  rw [isCovered_iff]
  intro i hi
  rw [valuesIn, BitVec.getLsbD_and, Bool.and_eq_true] at hi
  exact hi.2

/-- What fixes none of the bits agrees on them. -/
theorem agreeOn_of_fixes_none (ha : a.isCovered) (hb : b.isCovered)
    (hamask : a.mask &&& seen = 0) (hbmask : b.mask &&& seen = 0) : AgreeOn seen a b := by
  have hbits : ∀ fixed : FixedBits, fixed.isCovered → fixed.mask &&& seen = 0 →
      fixed.bits &&& seen = 0 := by
    intro fixed hcovered hmask
    rw [← mask_and_bits_of_isCovered hcovered, BitVec.and_comm fixed.mask, BitVec.and_assoc, hmask]
    exact BitVec.and_zero
  exact ⟨hamask.trans hbmask.symm, (hbits a ha hamask).trans (hbits b hb hbmask).symm⟩

/-- A code has no values that differ where nothing is fixed. -/
theorem agreeOn_valuesIn {fixed : FixedBits} (code : Code) (hcovered : fixed.isCovered)
    (hmask : fixed.mask &&& seen = 0) : (fixed.valuesIn code).AgreeOn seen fixed :=
  agreeOn_of_fixes_none (isCovered_valuesIn code fixed) hcovered hmask hmask

theorem AgreeOn.union (hseen : AgreeOn seen a b) (hrest : AgreeOn rest a b) :
    AgreeOn (seen ||| rest) a b := by
  have hdistrib : ∀ word : Code, word &&& (seen ||| rest) = word &&& seen ||| word &&& rest := by
    intro word
    ext i hi
    simp [Bool.and_or_distrib_left]
  unfold AgreeOn
  simp only [hdistrib]
  exact ⟨by rw [hseen.1, hrest.1], by rw [hseen.2, hrest.2]⟩

/-- A switch adds its mask to the bits that were looked at. -/
theorem AgreeOn.looked {free mask : Code} (hseen : AgreeOn (~~~free) a b)
    (hmask : AgreeOn mask a b) : AgreeOn (~~~(free &&& ~~~mask)) a b := by
  rw [BitVec.not_and, BitVec.not_not]
  exact hseen.union hmask

/-- Agreement on all bits is equality. -/
theorem AgreeOn.eq {free : Code} (hseen : AgreeOn (~~~free) a b) (hfree : AgreeOn free a b) :
    a = b := by
  have hall : AgreeOn (BitVec.allOnes 64) a b := by
    rw [← BitVec.or_not_self free]
    exact hfree.union hseen
  obtain ⟨hmask, hbits⟩ := hall
  rw [BitVec.and_allOnes, BitVec.and_allOnes] at hmask hbits
  cases a
  cases b
  exact congr (congrArg FixedBits.mk hmask) hbits

end FixedBits

/-! ## Candidates -/

/-- Candidates agree on the bits that are not free any more. -/
structure Agreeing (fixed : Nat → FixedBits) (free : Code) (candidates : List Nat) : Prop where
  covered : ∀ i ∈ candidates, (fixed i).isCovered
  agree : ∀ i ∈ candidates, ∀ j ∈ candidates, (fixed i).AgreeOn (~~~free) (fixed j)

namespace Agreeing

variable {fixed : Nat → FixedBits} {free mask : Code} {candidates list : List Nat} {key : Code}

/-- So do the candidates of a case, which fix the bits of the switch to the same values. -/
theorem ofCase (h : Agreeing fixed free candidates)
    (hcase : (key, list) ∈ (Partition.ofMask fixed mask candidates).cases) :
    Agreeing fixed (free &&& ~~~mask) list := by
  refine ⟨fun i hi => h.covered i (Partition.of_mem_case hcase hi).1, fun i hi j hj => ?_⟩
  obtain ⟨hi, himask, hibits⟩ := Partition.of_mem_case hcase hi
  obtain ⟨hj, hjmask, hjbits⟩ := Partition.of_mem_case hcase hj
  exact (h.agree i hi j hj).looked
    ⟨himask.trans hjmask.symm, hibits.trans hjbits.symm⟩

/-- So do the others, which fix none of these bits. -/
theorem ofOthers {split : Bool} (h : Agreeing fixed free candidates) :
    let mask := Discriminator.mask split (candidates.map fixed) free
    Agreeing fixed (free &&& ~~~mask) (Partition.ofMask fixed mask candidates).others := by
  intro mask
  refine ⟨fun i hi => h.covered i (Partition.mem_others_ofMask.1 hi).1, fun i hi j hj => ?_⟩
  have himask := (Node.fixes_none_of_mem_others hi).2
  have hjmask := (Node.fixes_none_of_mem_others hj).2
  have hi := (Partition.mem_others_ofMask.1 hi).1
  have hj := (Partition.mem_others_ofMask.1 hj).1
  exact (h.agree i hi j hj).looked
    (FixedBits.agreeOn_of_fixes_none (h.covered i hi) (h.covered j hj) himask hjmask)

end Agreeing

/-! ## Leaves -/

/-- The only item of a list. -/
theorem eq_singleton_of_mem {α : Type} {x : α} {xs : List α} (hx : x ∈ xs)
    (hlength : ¬1 < xs.length) : xs = [x] := by
  have hpos := List.length_pos_of_mem hx
  obtain ⟨y, rfl⟩ := List.length_eq_one_iff.1 (by omega : xs.length = 1)
  rw [List.mem_singleton.1 hx]

namespace Node

variable {fixed : Nat → FixedBits} {free code : Code} {start i : Nat} {candidates : List Nat}

/-- The instructions of a leaf fix no free bit, if there are several. -/
theorem fixes_no_free_of_mem_leaf
    (hleaf : (build fixed true free start candidates).isLeaf)
    (hlength : 1 < (build fixed true free start candidates).instructions.length)
    (hi : i ∈ (build fixed true free start candidates).instructions) :
    i ∈ candidates ∧ (fixed i).mask &&& free = 0 := by
  rcases build_cases free start candidates with ⟨hbuilt, hcause⟩ | ⟨-, -, hbuilt⟩
  · rw [hbuilt] at hlength hi
    have hmask := hcause.resolve_left (Nat.not_le.2 hlength)
    exact ⟨hi, Discriminator.fixes_no_free_of_mask_eq_zero hmask (List.mem_map_of_mem hi)⟩
  · rw [hbuilt] at hleaf
    cases hleaf

/-- The instructions of a leaf **fix the same bits**, to the same values. -/
theorem fixed_eq_of_mem_leaves (h : Agreeing fixed free candidates) {leaf : Node}
    (hleaf : leaf ∈ (build fixed true free start candidates).leaves) {j : Nat}
    (hi : i ∈ leaf.instructions) (hj : j ∈ leaf.instructions) : fixed i = fixed j := by
  obtain ⟨hnode, hleaf⟩ := List.mem_filter.1 hleaf
  obtain ⟨free, start, candidates, h, rfl⟩ := exists_build_of_mem_allNodes
    (motive := Agreeing fixed)
    (fun free candidates h _ => ⟨fun _ _ hcase => h.ofCase hcase, fun _ => h.ofOthers⟩) h hnode
  -- A single instruction has nothing to agree with, and its leaf may leave bits out.
  by_cases hlength : 1 < (build fixed true free start candidates).instructions.length
  · obtain ⟨hi, himask⟩ := fixes_no_free_of_mem_leaf hleaf hlength hi
    obtain ⟨hj, hjmask⟩ := fixes_no_free_of_mem_leaf hleaf hlength hj
    exact (h.agree i hi j hj).eq
      (FixedBits.agreeOn_of_fixes_none (h.covered i hi) (h.covered j hj) himask hjmask)
  · rw [eq_singleton_of_mem hi hlength, List.mem_singleton] at hj
    rw [hj]

/-! ## Lookups -/

/-- The numbers of the nodes do not matter to a lookup. -/
theorem mem_collect_build_of_start {split : Bool} (start' : Nat)
    (h : i ∈ (build fixed split free start candidates).collect code) :
    i ∈ (build fixed split free start' candidates).collect code := by
  refine build_induction (motive := fun free candidates node => i ∈ node.collect code →
    ∀ start', i ∈ (build fixed split free start' candidates).collect code) ?_ ?_
    free start candidates h start'
  · intro free start candidates hcause hi start'
    rw [build_eq_leaf start' hcause]
    exact hi
  · intro free start candidates mask parts child hlength hmask ih hi start'
    rw [build_eq_switch start' hlength hmask]
    rcases Branches.mem_of_mem_collect_ofPartition hi with
      ⟨start'', hchild⟩ | ⟨list, hcase, start'', hchild⟩
    · apply Branches.mem_collect_ofPartition_others
      · exact List.ne_nil_of_mem (mem_of_mem_collect_build hchild)
      · exact ih start'' _ hchild
    · exact Branches.mem_collect_ofPartition_case hcase (ih start'' list hchild)

/-- A candidate that a lookup finds at a switch is looked up in the branch where it is listed, and
    agrees with the code on the bits of the switch. -/
theorem mem_collect_child_and_agreeOn {split : Bool} {list : List Nat} (start' : Nat)
    (hcovered : (fixed i).isCovered) (hi : i ∈ list) :
    let mask := Discriminator.mask split (candidates.map fixed) free
    let parts := Partition.ofMask fixed mask candidates
    let child := build fixed split (free &&& ~~~mask)
    ((∃ key, (key, list) ∈ parts.cases) ∨ list = parts.others ∧ parts.others ≠ []) →
    i ∈ (Branches.ofPartition child start parts.others parts.cases).collect code (code &&& mask) →
      i ∈ (child start' list).collect code ∧
        ((fixed i).valuesIn code).AgreeOn mask (fixed i) := by
  intro mask parts child hlist hfound
  -- It fixes all bits of the switch or none, so it is listed in the branch where it was found.
  rcases Branches.mem_of_mem_collect_ofPartition hfound with
    ⟨start'', hchild⟩ | ⟨list', hcase', start'', hchild⟩
  · have hother : i ∈ parts.others := mem_of_mem_collect_build hchild
    have hnone : (fixed i).mask &&& mask = 0 := (fixes_none_of_mem_others hother).2
    rcases hlist with ⟨key, hcase⟩ | ⟨rfl, -⟩
    · exact absurd (Partition.of_mem_case hcase hi).2.1 (Partition.mem_others_ofMask.1 hother).2
    · exact ⟨mem_collect_build_of_start start' hchild,
        FixedBits.agreeOn_valuesIn code hcovered hnone⟩
  · have hi' : i ∈ list' := mem_of_mem_collect_build hchild
    obtain ⟨-, hfixes, hkey⟩ := Partition.of_mem_case hcase' hi'
    rcases hlist with ⟨key, hcase⟩ | ⟨rfl, -⟩
    · -- The case is the one of the code's own bits.
      obtain ⟨-, -, hkey'⟩ := Partition.of_mem_case hcase hi
      obtain rfl := hkey.symm.trans hkey'
      rw [(Partition.mem_cases_ofMask.1 hcase).2, ← (Partition.mem_cases_ofMask.1 hcase').2]
      refine ⟨mem_collect_build_of_start start' hchild, rfl, ?_⟩
      show code &&& (fixed i).mask &&& mask = (fixed i).bits &&& mask
      rw [BitVec.and_assoc, hfixes, hkey]
    · exact absurd hfixes (Partition.mem_others_ofMask.1 hi).2

/-- A candidate that a lookup finds in a leaf **with others** has the fixed bits. -/
theorem isMatch_of_mem_collect_build (hcovered : (fixed i).isCovered)
    (hseen : ((fixed i).valuesIn code).AgreeOn (~~~free) (fixed i)) {leaf : Node}
    (hleaf : leaf ∈ (build fixed true free start candidates).leaves)
    (hlength : 1 < leaf.instructions.length) (hi : i ∈ leaf.instructions)
    (hfound : i ∈ (build fixed true free start candidates).collect code) :
    (fixed i).isMatch code := by
  refine build_induction (motive := fun free candidates node =>
    ((fixed i).valuesIn code).AgreeOn (~~~free) (fixed i) → leaf ∈ node.leaves →
      i ∈ node.collect code → (fixed i).isMatch code) ?_ ?_ free start candidates hseen hleaf hfound
  · intro free start candidates hcause hseen hleaf _
    rw [leaves_leaf, List.mem_singleton] at hleaf
    obtain rfl := hleaf
    have hmask := hcause.resolve_left (Nat.not_le.2 hlength)
    have hnone : (fixed i).mask &&& free = 0 :=
      Discriminator.fixes_no_free_of_mask_eq_zero hmask (List.mem_map_of_mem hi)
    exact FixedBits.isMatch_iff.2 (hseen.eq (FixedBits.agreeOn_valuesIn code hcovered hnone))
  · intro free start candidates mask parts child _ _ ih hseen hleaf hfound
    rw [leaves_switch, List.mem_flatMap] at hleaf
    obtain ⟨below, hbelow, hleaf⟩ := hleaf
    obtain ⟨list, hlist, start', rfl⟩ := Branches.exists_of_mem_children_ofPartition hbelow
    have hlisted : i ∈ list := mem_listed_build.1 (List.mem_flatMap.2 ⟨leaf, hleaf, hi⟩)
    -- The branch of the leaf is the one of the lookup, and its bits are no longer free.
    obtain ⟨hchild, hmask⟩ := mem_collect_child_and_agreeOn start' hcovered hlisted hlist hfound
    exact ih start' list (hseen.looked hmask) hleaf hchild

end Node

/-! ## Trees -/

/-- The leaves of a tree are as precise as fixed bits can be. -/
structure DecisionTree.IsPrecise (tree : DecisionTree) (fixed : Nat → FixedBits) : Prop where
  /-- Fixed bits do not tell the instructions of a leaf apart. -/
  same : ∀ leaf ∈ tree.root.leaves, ∀ i ∈ leaf.instructions, ∀ j ∈ leaf.instructions,
    (fixed i).mask = (fixed j).mask ∧ (fixed i).bits = (fixed j).bits
  /-- Every candidate comes from a leaf. -/
  listed : ∀ code, ∀ i ∈ tree.candidates code, ∃ leaf ∈ tree.root.leaves, i ∈ leaf.instructions
  /-- A candidate from a leaf of several instructions has the fixed bits. -/
  isMatch : ∀ code, ∀ i ∈ tree.candidates code, ∀ leaf ∈ tree.root.leaves,
    i ∈ leaf.instructions → 2 ≤ leaf.instructions.length →
      (fixed i).isMatch (code &&& tree.form.codeMask)
  /-- A candidate without the fixed bits is the only instruction of its leaf. -/
  alone : ∀ code, ∀ i ∈ tree.candidates code, ∀ leaf ∈ tree.root.leaves,
    i ∈ leaf.instructions → ¬(fixed i).isMatch (code &&& tree.form.codeMask) →
      leaf.instructions = [i]

namespace Instruction

/-- The bits of an instruction that are set are fixed, and those that are fixed are in a form. -/
def FixesWithin (instruction : Instruction) (form : Form) : Prop :=
  instruction.fixed.isCovered ∧
    instruction.fixed.mask &&& form.codeMask = instruction.fixed.mask

instance (instruction : Instruction) (form : Form) : Decidable (instruction.FixesWithin form) :=
  inferInstanceAs (Decidable (_ ∧ _))

/-- Compiled instructions fix bits of their own form. -/
theorem fixesWithin_of_compile {description : InstructionDescription} {instruction : Instruction}
    (h : compile description = .ok instruction) : instruction.FixesWithin instruction.form := by
  obtain ⟨format, layout, -, -, hlaysOut, hform, hfixed, -⟩ := exists_laysOut_of_compile h
  unfold FixesWithin
  rw [hfixed, hlaysOut.fixed, FixedBits.ofPattern_eq, FixedBits.isCovered_iff, BitVec.and_comm,
    Code.and_eq_right_iff]
  constructor
  · intro i hi
    rw [FixedBits.getLsbD_bitsWhere] at hi ⊢
    obtain ⟨hlt, bit, hbit, hone⟩ := hi
    refine ⟨hlt, bit, hbit, ?_⟩
    rw [beq_iff_eq.1 hone]
    rfl
  · intro i hi
    have hlt : i < format.bitLen := by
      by_contra hle
      rw [FixedBits.getLsbD_bitsWhere_of_le _ (Nat.not_lt.1 hle)] at hi
      cases hi
    rw [Form.codeMask, Code.getLsbD_lowMask, decide_eq_true_iff, hform, hlaysOut.bitLen_eq]
    exact ⟨hlt, BitVec.lt_of_getLsbD hi⟩

end Instruction

namespace DecisionTree

/-- A tree that may be split by the bits of some instructions is precise, if these bits are bits of
    its form. -/
theorem isPrecise_build {form : Form} {fixed : Nat → FixedBits} {indices : List Nat}
    (hcovered : ∀ i ∈ indices, (fixed i).isCovered)
    (hform : ∀ i ∈ indices, (fixed i).mask &&& form.codeMask = (fixed i).mask) :
    (build form fixed true indices).IsPrecise fixed := by
  -- Outside the form nothing is fixed.
  have hnone : ∀ i ∈ indices, (fixed i).mask &&& ~~~form.codeMask = 0 := by
    intro i hi
    rw [← hform i hi, BitVec.and_assoc, BitVec.and_not_self]
    exact BitVec.and_zero
  have htop : Agreeing fixed form.codeMask indices :=
    ⟨hcovered, fun i hi j hj => FixedBits.agreeOn_of_fixes_none (hcovered i hi) (hcovered j hj)
      (hnone i hi) (hnone j hj)⟩
  have hmatch : ∀ code, ∀ i ∈ (build form fixed true indices).candidates code,
      ∀ leaf ∈ (build form fixed true indices).root.leaves, i ∈ leaf.instructions →
        1 < leaf.instructions.length → (fixed i).isMatch (code &&& form.codeMask) := by
    intro code i hcandidate leaf hleaf hi hlength
    have hfound := mem_ofList.1 hcandidate
    have hindex : i ∈ indices := Node.mem_of_mem_collect_build hfound
    refine Node.isMatch_of_mem_collect_build (hcovered i hindex) ?_ hleaf hlength hi hfound
    exact FixedBits.agreeOn_valuesIn _ (hcovered i hindex) (hnone i hindex)
  refine ⟨?_, ?_, hmatch, ?_⟩
  · intro leaf hleaf i hi j hj
    rw [Node.fixed_eq_of_mem_leaves htop hleaf hi hj]
    exact ⟨rfl, rfl⟩
  · intro code i hi
    exact List.mem_flatMap.1
      (Node.mem_listed_build.2 (Node.mem_of_mem_collect_build (mem_ofList.1 hi)))
  · intro code i hcandidate leaf hleaf hi hnot
    exact eq_singleton_of_mem hi fun hlength => hnot (hmatch code i hcandidate leaf hleaf hi hlength)

/-- **Precision**: if the instructions of a tree fix bits of its form only, as compiled ones do, and
    the tree may be split by bits that only some of them fix, then the instructions of a leaf fix the
    same bits to the same values.  So a candidate of a code has the fixed bits, unless it is the only
    instruction of its leaf. -/
theorem leaves_precise :
    (∀ form instructions indices,
      (∀ i ∈ indices, ∀ instruction, instructions[i]? = some instruction →
        instruction.FixesWithin form) →
      (ofInstructions form instructions true indices).IsPrecise
        (Instruction.fixedAt instructions)) ∧
    ∀ description instruction, Instruction.compile description = .ok instruction →
      instruction.FixesWithin instruction.form := by
  constructor
  · intro form instructions indices hwithin
    have hfixed : ∀ i ∈ indices, (Instruction.fixedAt instructions i).isCovered ∧
        (Instruction.fixedAt instructions i).mask &&& form.codeMask =
          (Instruction.fixedAt instructions i).mask := by
      intro i hi
      unfold Instruction.fixedAt
      cases hinstruction : instructions[i]? with
      | none => exact ⟨rfl, BitVec.zero_and⟩
      | some instruction => exact hwithin i hi instruction hinstruction
    exact isPrecise_build (fun i hi => (hfixed i hi).1) fun i hi => (hfixed i hi).2
  · intro description instruction hcompile
    exact Instruction.fixesWithin_of_compile hcompile

/-- Two instructions with the same fixed bits share a leaf.  The third one is alone, and its low bits
    are not looked at. -/
theorem leaves_precise_identical :
    ∃ instructions,
      [Sample.plain "x" "0101|xxxx:a", Sample.plain "y" "0101|xxxx:b",
        Sample.plain "z" "1111|0000"].mapM Instruction.compile = .ok instructions ∧
      let tree := ofInstructions ⟨8, 1⟩ instructions true [0, 1, 2]
      tree.root.leaves.map (·.instructions) = [[0, 1], [2]] ∧
      tree.candidates 0x57 = [0, 1] ∧ tree.candidates 0xf7 = [2] ∧
      tree.IsPrecise (Instruction.fixedAt instructions) := by
  have hvalues : ([Sample.plain "x" "0101|xxxx:a", Sample.plain "y" "0101|xxxx:b",
      Sample.plain "z" "1111|0000"].mapM Instruction.compile).toOption.map (fun instructions =>
        let tree := ofInstructions ⟨8, 1⟩ instructions true [0, 1, 2]
        (instructions.all (·.FixesWithin ⟨8, 1⟩), tree.root.leaves.map (·.instructions),
          tree.candidates 0x57, tree.candidates 0xf7)) =
      some (true, [[0, 1], [2]], [0, 1], [2]) := by
    decide +kernel
  obtain ⟨instructions, hcompiled, hvalues⟩ := Option.map_eq_some_iff.1 hvalues
  simp only [Prod.mk.injEq] at hvalues
  obtain ⟨hwithin, hleaves, hshared, halone⟩ := hvalues
  refine ⟨instructions, toOption_eq_some.1 hcompiled, hleaves, hshared, halone, ?_⟩
  apply leaves_precise.1
  intro i _ instruction hinstruction
  have hmem : instruction ∈ instructions := List.mem_of_getElem? hinstruction
  simpa using List.all_eq_true.1 hwithin instruction hmem

end DecisionTree

end IsaCodec
