import IsaCodec.Proofs.Bytes.Assembly
import IsaCodec.Proofs.Decoder.LinearScan
import IsaCodec.Proofs.Instruction.Assignment

/-! # Forms of decoders

    What decoding bytes relies on is a fact of the forms: a compiled
    instruction has at least one bit and at most 64 (`fitsWord_of_compile`).
    A hook may edit instructions as it likes; as long as it keeps their forms,
    this holds of all instructions of a decoder (`KeepsForms.fitsWord`). -/

namespace IsaCodec

/-! ## Compiled instructions -/

theorem Instruction.fitsWord_of_compile {description : InstructionDescription}
    {instruction : Instruction} (h : compile description = .ok instruction) :
    instruction.form.FitsWord := by
  obtain ⟨format, layout, -, hproper, hlaysOut, hform, -⟩ := exists_laysOut_of_compile h
  rw [hform]
  constructor
  · rw [hlaysOut.form]
    exact hproper.bitLen_pos
  · rw [hlaysOut.form]
    exact hlaysOut.width

theorem Form.byteLen_pos {form : Form} (h : 0 < form.bitLen) : 0 < form.byteLen := by
  unfold byteLen
  omega

namespace Decoder

/-! ## Compiled descriptions -/

/-- Each description is compiled, and the hook edits what comes of it. -/
theorem forall₂_of_compileAll {hook : Hook} {earlier : List Instruction}
    {entries : List InstructionDescription} {instructions : List Instruction}
    (h : compileAll hook earlier entries = .ok instructions) :
    List.Forall₂
      (fun entry instruction => ∃ compiled, Instruction.compile entry = .ok compiled ∧
        ∃ earlier, instruction = hook earlier compiled)
      entries instructions := by
  -- The hook is given more and more earlier instructions.
  induction entries generalizing earlier instructions with
  | nil =>
    rw [← pure_eq_ok.1 h]
    exact .nil
  | cons entry entries ih =>
    obtain ⟨compiled, hentry, h⟩ := bind_eq_ok.1 h
    obtain ⟨-, -, h⟩ := bind_eq_ok.1 h
    obtain ⟨others, hothers, h⟩ := bind_eq_ok.1 h
    rw [← pure_eq_ok.1 h]
    exact .cons ⟨compiled, hentry, earlier, rfl⟩ (ih hothers)

/-- Without a hook the instructions are those that were compiled. -/
theorem exists_compile_of_compileAll {entries : List InstructionDescription}
    {instructions : List Instruction} (h : compileAll (fun _ => id) [] entries = .ok instructions) :
    ∀ instruction ∈ instructions, ∃ entry, Instruction.compile entry = .ok instruction := by
  have hentries := forall₂_of_compileAll h
  clear h
  induction hentries with
  | nil => exact List.forall_mem_nil _
  | cons hentry _ ih =>
    obtain ⟨compiled, hcompiled, -, rfl⟩ := hentry
    exact List.forall_mem_cons.2 ⟨⟨_, hcompiled⟩, ih⟩

/-! ## Kept forms -/

/-- Each instruction has the form to which its description is compiled, whatever else of it a hook
    has changed. -/
def KeepsForms (description : Description) (decoder : Decoder) : Prop :=
  List.Forall₂
    (fun entry instruction =>
      ∃ compiled, Instruction.compile entry = .ok compiled ∧ instruction.form = compiled.form)
    description.instructions decoder.instructions

/-- A hook that changes no form keeps the forms of every description. -/
theorem keepsForms_of_hook {options : Options} {registry : Registry} {hook : Hook}
    {description : Description} {decoder : Decoder}
    (hbuild : buildHooked options registry hook description = .ok decoder)
    (hhook : ∀ earlier instruction, (hook earlier instruction).form = instruction.form) :
    decoder.KeepsForms description := by
  obtain ⟨instructions, hcompiled, rfl⟩ := buildHooked_eq_ok.1 hbuild
  refine (forall₂_of_compileAll hcompiled).imp fun entry instruction h => ?_
  obtain ⟨compiled, hentry, earlier, rfl⟩ := h
  exact ⟨compiled, hentry, hhook earlier compiled⟩

theorem KeepsForms.fitsWord {description : Description} {decoder : Decoder}
    (h : decoder.KeepsForms description) {instruction : Instruction}
    (hmem : instruction ∈ decoder.instructions) : instruction.form.FitsWord := by
  obtain ⟨i, hi, rfl⟩ := List.getElem_of_mem hmem
  obtain ⟨hlength, hentries⟩ := List.forall₂_iff_get.1 h
  obtain ⟨compiled, hcompiled, hform⟩ := hentries i (hlength ▸ hi) hi
  rw [List.get_eq_getElem] at hform
  rw [hform]
  exact Instruction.fitsWord_of_compile hcompiled

theorem KeepsForms.isCounted {description : Description} {decoder : Decoder}
    (h : decoder.KeepsForms description) {instruction : Instruction}
    (hmem : instruction ∈ decoder.instructions) : instruction.form.IsCounted :=
  (h.fitsWord hmem).isCounted

/-! ## The widest form -/

theorem exists_widest {instructions : List Instruction} (h : instructions ≠ []) :
    (∃ instruction ∈ instructions, instruction.form.bitLen = widest instructions) ∧
      ∀ instruction ∈ instructions, instruction.form.bitLen ≤ widest instructions := by
  obtain ⟨width, hwidth⟩ : ∃ width, (instructions.map (·.bitLen)).max? = some width :=
    Option.ne_none_iff_exists'.1 (by simpa [List.max?_eq_none_iff] using h)
  obtain ⟨hmem, hle⟩ := List.max?_eq_some_iff.1 hwidth
  rw [widest, hwidth]
  obtain ⟨instruction, hinstruction, hlen⟩ := List.mem_map.1 hmem
  exact ⟨⟨instruction, hinstruction, hlen⟩, fun other hother =>
    hle _ (List.mem_map_of_mem hother)⟩

/-! ## Whole bytes -/

/-- Bytes and codes of an instruction set are made up alike: every element is a whole number of
    bytes, and the elements of all instructions are as long as each other unless the byte order is
    big-endian. -/
structure IsBytewise (decoder : Decoder) : Prop where
  whole : ∀ instruction ∈ decoder.instructions, instruction.form.elementBitLen % 8 = 0
  order : decoder.machine.byteOrder = .big ∨
    ∀ a ∈ decoder.instructions, ∀ b ∈ decoder.instructions,
      a.form.elementBitLen = b.form.elementBitLen

theorem isBytewise_of_big {decoder : Decoder} (hbig : decoder.machine.byteOrder = .big)
    (hwhole : ∀ form ∈ decoder.instructions.map (·.form), form.elementBitLen % 8 = 0) :
    decoder.IsBytewise :=
  ⟨fun _ hmem => hwhole _ (List.mem_map_of_mem hmem), .inl hbig⟩

/-! ## Built decoders -/

section built

variable {options : Options} {registry : Registry} {hook : Hook} {description : Description}
  {decoder : Decoder} (hbuild : buildHooked options registry hook description = .ok decoder)

include hbuild

theorem machine_eq : decoder.machine = description.machine := by
  obtain ⟨instructions, -, rfl⟩ := buildHooked_eq_ok.1 hbuild
  rfl

/-- The width of codes is a matter of the forms. -/
theorem codeBitLen_eq : decoder.codeBitLen =
    ((decoder.instructions.map (·.form)).map Form.bitLen).max?.getD 0 := by
  obtain ⟨instructions, -, rfl⟩ := buildHooked_eq_ok.1 hbuild
  rw [List.map_map]
  rfl

end built

end Decoder

end IsaCodec
