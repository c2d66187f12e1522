import IsaCodec.Proofs.Instruction.Meaning
import IsaCodec.Proofs.Layout.Machine

/-! # Accepted formats

    Which formats the compiler accepts, and that it always comes to an end
    with machine arithmetic.

    * **`compile_iff_isLegal`** — a description without conditions whose
      format can be read is compiled exactly if the format is legal.  Whether
      it is or not, no operation on machine words traps, as long as the
      format has less than `2 ^ 26` bytes: then it has less than `2 ^ 26`
      ranges of at most 64 bits, whose widths are added before they are
      compared with anything. -/

namespace IsaCodec.Instruction

/-- Without conditions only the layout can be wrong. -/
theorem exists_compile_eq_ok {description : InstructionDescription} {format : Format}
    (hread : Format.parse description.format = .ok format)
    (hmatch : description.matchCondition = none) (hunmatch : description.unmatchCondition = none) :
    (∃ instruction, compile description = .ok instruction) ↔
      ∃ layout, Layout.ofFormat format description.fieldExtras = .ok layout := by
  unfold compile Layout.compile
  rw [hread, hmatch, hunmatch]
  dsimp only
  cases Layout.ofFormat format description.fieldExtras with
  | error fault =>
    constructor
    · intro h
      obtain ⟨instruction, h⟩ := h
      cases h
    · intro h
      obtain ⟨layout, h⟩ := h
      cases h
  | ok layout => exact iff_of_true ⟨ofLayout description layout, rfl⟩ ⟨layout, rfl⟩

/-- **Exactly the legal formats are accepted**, and machine arithmetic never traps: its outcome is
    that of natural numbers, an instruction or a fault. -/
theorem compile_iff_isLegal {description : InstructionDescription} {format : Format}
    (hread : Format.parse description.format = .ok format)
    (hsize : description.format.utf8ByteSize < 2 ^ 26)
    (hmatch : description.matchCondition = none) (hunmatch : description.unmatchCondition = none) :
    ((∃ instruction, compile description = .ok instruction) ↔
        format.IsLegal description.fieldExtras) ∧
      Machine.compile description =
        Machine.untrapped Machine.storeInstruction (compile description) ∧
      Machine.compile description ≠ .error .trap := by
  have hmachine := Machine.compile_eq hsize hmatch hunmatch
  refine ⟨?_, hmachine, ?_⟩
  · rw [exists_compile_eq_ok hread hmatch hunmatch, Layout.exists_ofFormat_eq_ok hread]
  · rw [hmachine]
    cases compile description with
    | error error => exact fun h => nomatch h
    | ok instruction => exact fun h => nomatch h

/-- An immediate whose two parts lie in different segments. -/
def storeDouble : InstructionDescription :=
  Sample.plain "c_sd" "111|xxx:uimm[5:3]|xxx:rs1|xx:uimm[7:6]|xxx:rs2|00"

/-- The same with a bit of the immediate in both parts. -/
def storeDoubleTwice : InstructionDescription :=
  Sample.plain "c_sd" "111|xxx:uimm[5:3]|xxx:rs1|xx:uimm[6:5]|xxx:rs2|00"

theorem compile_iff_isLegal_storeDouble :
    (∃ format, Format.parse storeDouble.format = .ok format ∧
        format.IsLegal storeDouble.fieldExtras ∧
          ∃ stored, Machine.compile storeDouble = .ok stored) ∧
      ∃ format, Format.parse storeDoubleTwice.format = .ok format ∧
        ¬format.IsLegal storeDoubleTwice.fieldExtras ∧
          Machine.compile storeDoubleTwice =
            .error (.fault (.layout ⟨"c_sd", .overlap "uimm" 5⟩)) := by
  constructor
  · have hread : (Format.parse storeDouble.format).toOption.isSome := by decide +kernel
    have hcompiled : (compile storeDouble).toOption.isSome := by decide +kernel
    obtain ⟨format, hread⟩ := exists_eq_ok hread
    obtain ⟨instruction, hcompile⟩ := exists_eq_ok hcompiled
    obtain ⟨hlegal, hmachine, -⟩ := compile_iff_isLegal hread (by decide +kernel) rfl rfl
    rw [hcompile] at hmachine
    exact ⟨format, hread, hlegal.1 ⟨instruction, hcompile⟩, _, hmachine⟩
  · have hread : (Format.parse storeDoubleTwice.format).toOption.isSome := by decide +kernel
    have hfault : (match compile storeDoubleTwice with
        | .error error => some error
        | .ok _ => none) = some (.layout ⟨"c_sd", .overlap "uimm" 5⟩) := by
      decide +kernel
    obtain ⟨format, hread⟩ := exists_eq_ok hread
    obtain ⟨hlegal, hmachine, -⟩ := compile_iff_isLegal hread (by decide +kernel) rfl rfl
    cases hcompile : compile storeDoubleTwice with
    | ok instruction =>
      rw [hcompile] at hfault
      cases hfault
    | error error =>
      rw [hcompile] at hfault hmachine hlegal
      obtain rfl := Option.some.inj hfault
      refine ⟨format, hread, fun h => ?_, hmachine⟩
      obtain ⟨instruction, h⟩ := hlegal.2 h
      cases h

end IsaCodec.Instruction
