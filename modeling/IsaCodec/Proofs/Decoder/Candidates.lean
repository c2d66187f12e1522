import IsaCodec.Decoder.Bytes
import IsaCodec.Decoder.Scalar
import IsaCodec.Proofs.DecisionTree.Routing
import IsaCodec.Proofs.Order

/-! # Lookups

    The trees of a decoder are looked up one after the other, each with the
    code of its form; where this code comes from differs.  The trees only save
    work: the lookups find those instructions whose fixed bits match the code
    of their form (`mem_lookups`), which a plain test of all instructions
    finds too, in the order of declaration (`lookups_perm`). -/

namespace IsaCodec

open scoped List

namespace Decoder

/-! ## Trees -/

/-- The candidate that the instruction of an index is for a code, if it has the fixed bits. -/
def candidateAt (instructions : List Instruction) (code : Code) (index : Nat) :
    Option Candidate := do
  let instruction ← instructions[index]?
  if instruction.matchesFixedBits code then some ⟨index, instruction, code⟩ else none

/-- The candidates of one tree for a code of its form. -/
def lookup (instructions : List Instruction) (code : Code) (tree : DecisionTree) :
    List Candidate :=
  (tree.candidates code).filterMap (candidateAt instructions code)

theorem mem_indicesOf {form : Form} {instructions : List Instruction} {i : Nat} :
    i ∈ indicesOf form instructions ↔
      ∃ instruction, instructions[i]? = some instruction ∧ instruction.form = form := by
  simp only [indicesOf, List.mem_map, List.mem_filter, Prod.exists, List.mem_zipIdx_iff_getElem?,
    beq_iff_eq]
  constructor
  · intro h
    obtain ⟨instruction, i, ⟨hi, hform⟩, rfl⟩ := h
    exact ⟨instruction, hi, hform⟩
  · intro h
    obtain ⟨instruction, hi, hform⟩ := h
    exact ⟨instruction, i, ⟨hi, hform⟩, rfl⟩

theorem candidateAt_eq_some {instructions : List Instruction} {code : Code} {index : Nat}
    {candidate : Candidate} :
    candidateAt instructions code index = some candidate ↔
      candidate.index = index ∧ candidate.code = code ∧
        instructions[index]? = some candidate.instruction ∧
        candidate.instruction.matchesFixedBits code := by
  obtain ⟨index', instruction', code'⟩ := candidate
  unfold candidateAt
  show Option.bind _ _ = _ ↔ _
  rw [Option.bind_eq_some_iff]
  constructor
  · intro h
    obtain ⟨instruction, hindex, hsome⟩ := h
    by_cases hmatch : instruction.matchesFixedBits code
    · rw [if_pos hmatch, Option.some.injEq, Candidate.mk.injEq] at hsome
      obtain ⟨rfl, rfl, rfl⟩ := hsome
      exact ⟨rfl, rfl, hindex, hmatch⟩
    · simp [hmatch] at hsome
  · intro h
    obtain ⟨rfl, rfl, hindex, hmatch⟩ := h
    exact ⟨instruction', hindex, by simp only [hmatch, if_pos]⟩

theorem pairwise_lookup (instructions : List Instruction) (code : Code) (tree : DecisionTree) :
    (lookup instructions code tree).Pairwise fun a b => a.index < b.index := by
  rw [lookup, List.pairwise_filterMap]
  refine (tree.pairwise_candidates _).imp fun {i j} hij a ha b hb => ?_
  obtain ⟨rfl, -⟩ := candidateAt_eq_some.1 ha
  obtain ⟨rfl, -⟩ := candidateAt_eq_some.1 hb
  exact hij

theorem mem_candidates_ofInstructions {form : Form} {instructions : List Instruction}
    {split : Bool} {code : Code} {index : Nat} {instruction : Instruction}
    (hinstruction : instructions[index]? = some instruction)
    (hcode : code &&& form.codeMask = code) (hmatch : instruction.matchesFixedBits code) :
    index ∈ (DecisionTree.ofInstructions form instructions split
        (indicesOf form instructions)).candidates code ↔ instruction.form = form := by
  have hfixed : (Instruction.fixedAt instructions index).isMatch (code &&& form.codeMask) := by
    simp only [Instruction.fixedAt, hinstruction, hcode]
    exact hmatch
  rw [DecisionTree.ofInstructions, DecisionTree.mem_candidates_build hfixed, mem_indicesOf]
  simp [hinstruction]

/-- What a lookup in the tree of one form finds. -/
theorem mem_lookup_ofInstructions {form : Form} {instructions : List Instruction} {split : Bool}
    {code : Code} {candidate : Candidate} (hcode : code &&& form.codeMask = code) :
    candidate ∈ lookup instructions code
        (.ofInstructions form instructions split (indicesOf form instructions)) ↔
      instructions[candidate.index]? = some candidate.instruction ∧
        candidate.instruction.form = form ∧ candidate.code = code ∧
        candidate.instruction.matchesFixedBits code := by
  rw [lookup, List.mem_filterMap]
  constructor
  · intro h
    obtain ⟨index, hindex, hsome⟩ := h
    obtain ⟨rfl, hcandidate, hinstruction, hmatch⟩ := candidateAt_eq_some.1 hsome
    have hform := (mem_candidates_ofInstructions hinstruction hcode hmatch).1 hindex
    exact ⟨hinstruction, hform, hcandidate, hmatch⟩
  · intro h
    obtain ⟨hinstruction, hform, hcandidate, hmatch⟩ := h
    exact ⟨candidate.index, (mem_candidates_ofInstructions hinstruction hcode hmatch).2 hform,
      candidateAt_eq_some.2 ⟨rfl, hcandidate, hinstruction, hmatch⟩⟩

/-! ## All trees -/

/-- There are trees for the forms of the instructions. -/
theorem mem_ofList_forms {instructions : List Instruction} {form : Form} :
    form ∈ Ascending.ofList (instructions.map (·.form)) ↔
      ∃ instruction ∈ instructions, instruction.form = form := by
  rw [Ascending.mem_ofList fun _ _ => Form.eq_of_not_lt, List.mem_map]

/-- The candidates of some trees, where each tree is looked up with the code of its form, if
    there is one. -/
def lookups (codeOf : Form → Option Code) (instructions : List Instruction)
    (trees : List DecisionTree) : List Candidate :=
  trees.flatMap fun tree => (codeOf tree.form).elim [] fun code => lookup instructions code tree

section lookups

variable {codeOf : Form → Option Code} {instructions : List Instruction} {split : Bool}
  (hcodes : ∀ instruction ∈ instructions, ∀ code, codeOf instruction.form = some code →
    code &&& instruction.form.codeMask = code)

include hcodes

/-- What the lookup in the tree of one form finds, if there is a code of this form. -/
theorem mem_elim_lookup {form : Form}
    (hform : ∃ instruction ∈ instructions, instruction.form = form) {candidate : Candidate} :
    candidate ∈ (codeOf form).elim [] (fun code => lookup instructions code
        (.ofInstructions form instructions split (indicesOf form instructions))) ↔
      (instructions[candidate.index]? = some candidate.instruction ∧
        codeOf candidate.instruction.form = some candidate.code ∧
        candidate.instruction.matchesFixedBits candidate.code) ∧
          candidate.instruction.form = form := by
  cases hcode : codeOf form with
  | none =>
    refine ⟨(fun h => nomatch h), fun h => ?_⟩
    obtain ⟨⟨-, hcandidate, -⟩, rfl⟩ := h
    rw [hcandidate] at hcode
    exact nomatch hcode
  | some code =>
    have hmasked : code &&& form.codeMask = code := by
      obtain ⟨instruction, hmem, rfl⟩ := hform
      exact hcodes instruction hmem code hcode
    rw [Option.elim_some, mem_lookup_ofInstructions hmasked]
    constructor
    · intro h
      obtain ⟨hinstruction, rfl, rfl, hmatch⟩ := h
      exact ⟨⟨hinstruction, hcode, hmatch⟩, rfl⟩
    · intro h
      obtain ⟨⟨hinstruction, hcandidate, hmatch⟩, rfl⟩ := h
      obtain rfl := Option.some.inj (hcandidate.symm.trans hcode)
      exact ⟨hinstruction, rfl, rfl, hmatch⟩

/-- **Lookups** in the trees of instructions find those whose fixed bits match. -/
theorem mem_lookups {candidate : Candidate} :
    candidate ∈ lookups codeOf instructions (buildTrees split instructions) ↔
      instructions[candidate.index]? = some candidate.instruction ∧
        codeOf candidate.instruction.form = some candidate.code ∧
        candidate.instruction.matchesFixedBits candidate.code := by
  rw [lookups, buildTrees, List.flatMap_map, List.mem_flatMap]
  constructor
  · intro h
    obtain ⟨form, hform, hcandidate⟩ := h
    exact ((mem_elim_lookup hcodes (mem_ofList_forms.1 hform)).1 hcandidate).1
  · intro h
    have hform : ∃ instruction ∈ instructions, instruction.form = candidate.instruction.form :=
      ⟨candidate.instruction, List.mem_of_getElem? h.1, rfl⟩
    exact ⟨candidate.instruction.form, mem_ofList_forms.2 hform,
      (mem_elim_lookup hcodes hform).2 ⟨h, rfl⟩⟩

/-- A list in order of declaration that has these members is what the lookups find. -/
theorem lookups_perm {found : List Candidate}
    (hfound : found.Pairwise fun a b => a.index < b.index)
    (hmem : ∀ candidate, candidate ∈ found ↔
      instructions[candidate.index]? = some candidate.instruction ∧
        codeOf candidate.instruction.form = some candidate.code ∧
        candidate.instruction.matchesFixedBits candidate.code) :
    lookups codeOf instructions (buildTrees split instructions) ~ found := by
  -- Each tree gives the part of the list that has its form.
  have htree : ∀ form ∈ Ascending.ofList (instructions.map (·.form)),
      ((codeOf form).elim [] fun code => lookup instructions code
        (.ofInstructions form instructions split (indicesOf form instructions))) =
          found.filter fun candidate => candidate.instruction.form == form := by
    intro form hform
    refine eq_of_mem_iff_of_ascending Candidate.index ?_ (hfound.filter _) fun candidate => ?_
    · cases codeOf form with
      | none => exact .nil
      | some code => exact pairwise_lookup _ _ _
    · rw [mem_elim_lookup hcodes (mem_ofList_forms.1 hform), List.mem_filter, hmem, beq_iff_eq]
  rw [lookups, buildTrees, List.flatMap_map]
  refine (List.Perm.of_eq (List.flatMap_congr htree)).trans ?_
  -- What is left to show is that the forms are distinct and every instruction's is among them.
  refine perm_flatMap_filter (fun candidate : Candidate => candidate.instruction.form) ?_ ?_
  · exact (Ascending.pairwise_ofList Form.lt_trans (fun _ _ => Form.eq_of_not_lt) _).imp
      fun hlt heq => by simp [heq, Form.lt_iff] at hlt
  · intro candidate hcandidate
    obtain ⟨hinstruction, -⟩ := (hmem candidate).1 hcandidate
    exact mem_ofList_forms.2 ⟨_, List.mem_of_getElem? hinstruction, rfl⟩

end lookups

end Decoder

end IsaCodec
