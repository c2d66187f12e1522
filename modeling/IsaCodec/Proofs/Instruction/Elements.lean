import IsaCodec.Proofs.Instruction.Assignment
import IsaCodec.Proofs.Layout.Elements

/-! # Elements and fields

    A condition may look at the part of a field that one encoding element
    holds.  The parts of a field of a compiled instruction are disjoint, and
    together they are the field: each of its bits is decided by the element
    that holds the bit's partner in the code.

    * **`decodeElement_eq_decodeElement`** — two codes have the same part if
      they agree on the bits of the field in the element.
    * **`isUnionOfElements_of_compile`** — how a field is divided. -/

namespace IsaCodec

/-- A field is divided into disjoint parts, one for each encoding element. -/
structure Field.IsUnionOfElements (field : Field) (form : Form) : Prop where
  /-- No subfield reaches beyond its element. -/
  inside : ∀ subfield ∈ field.subfields,
    subfield.lsb ≤ subfield.msb ∧ subfield.element form < form.elementCount ∧
      ∀ bit, subfield.lsb ≤ bit → bit ≤ subfield.msb →
        bit ∈ form.elementBits (subfield.element form)
  /-- The parts make up the value. -/
  union : ∀ code,
    Code.union ((List.range form.elementCount).map (field.decodeElement code form)) =
      field.decode code
  /-- No bit of the value is in two parts. -/
  disjoint : ∀ element element', element ≠ element' → ∀ code code',
    field.decodeElement code form element &&& field.decodeElement code' form element' = 0
  /-- A part depends on the bits of its element only. -/
  decode : ∀ element code code',
    (∀ bit ∈ form.elementBits element, code.getLsbD bit = code'.getLsbD bit) →
      field.decodeElement code form element = field.decodeElement code' form element
  /-- There is a part if the field has bits in the element. -/
  has : ∀ element, field.hasElement form element = true ↔
    ∃ bit ∈ form.elementBits element, field.mask.getLsbD bit = true

namespace Field

variable {field : Field} {form : Form} {element element' : Nat} {code code' : Code}

/-- The parts of a field make up its value. -/
theorem union_decodeElement (h : field.IsInsideElements form) (code : Code) :
    Code.union ((List.range form.elementCount).map (field.decodeElement code form)) =
      field.decode code := by
  refine BitVec.eq_of_getLsbD_eq fun v _ => ?_
  rw [Bool.eq_iff_iff, Code.getLsbD_union, List.any_map, List.any_eq_true, getLsbD_decode]
  simp only [List.mem_range, Function.comp_apply, getLsbD_decodeElement h]
  constructor
  · intro hset
    obtain ⟨element, -, hv, bit, hpair, -, hcode⟩ := hset
    exact ⟨hv, bit, hpair, hcode⟩
  · intro hset
    obtain ⟨hv, bit, hpair, hcode⟩ := hset
    -- The bit belongs to a subfield, and so to the element of that.
    obtain ⟨subfield, hsubfield, hbit⟩ := List.mem_flatMap.1 (List.of_mem_zip hpair).1
    have hinside := h subfield hsubfield
    exact ⟨_, hinside.element_lt, hv, bit, hpair, hinside.bits bit hbit, hcode⟩

/-- A bit of the value has its partner in one element only. -/
theorem decodeElement_and_decodeElement (h : field.IsInsideElements form)
    (hpaired : field.IsPaired) (hne : element ≠ element') :
    field.decodeElement code form element &&& field.decodeElement code' form element' = 0 := by
  refine BitVec.eq_of_getLsbD_eq fun v _ => ?_
  rw [BitVec.getLsbD_and, show (0 : Code).getLsbD v = false from BitVec.getLsbD_zero,
    ← Bool.not_eq_true, Bool.and_eq_true, getLsbD_decodeElement h, getLsbD_decodeElement h]
  intro hset
  obtain ⟨⟨-, bit, hpair, hbit, -⟩, -, bit', hpair', hbit', -⟩ := hset
  obtain rfl := hpaired.eq_of_mem_zip hpair hpair'
  obtain ⟨-, rfl⟩ := Form.mem_elementBits.1 hbit
  exact hne (Form.mem_elementBits.1 hbit').2

/-- Only the bits of the field that are in the element matter to its part. -/
theorem decodeElement_eq_decodeElement (h : field.IsInsideElements form)
    (hagree : ∀ bit ∈ field.bits, bit ∈ form.elementBits element →
      code.getLsbD bit = code'.getLsbD bit) :
    field.decodeElement code form element = field.decodeElement code' form element := by
  refine BitVec.eq_of_getLsbD_eq fun v _ => ?_
  rw [Bool.eq_iff_iff, getLsbD_decodeElement h, getLsbD_decodeElement h]
  refine and_congr_right fun _ => exists_congr fun bit =>
    and_congr_right fun hpair => and_congr_right fun hbit => ?_
  rw [hagree bit (List.of_mem_zip hpair).1 hbit]

theorem isUnionOfElements (h : field.IsInsideElements form) (hpaired : field.IsPaired) :
    field.IsUnionOfElements form where
  inside subfield hsubfield := by
    have hinside := h subfield hsubfield
    have hends := hinside.ends
    refine ⟨hends, hinside.element_lt, fun bit hlo hhi => hinside.bits bit ?_⟩
    rw [Subfield.bits, mem_descending, Subfield.width]
    omega
  union := union_decodeElement h
  disjoint element element' hne code code' := decodeElement_and_decodeElement h hpaired hne
  decode element code code' hagree :=
    decodeElement_eq_decodeElement h fun bit _ hbit => hagree bit hbit
  has element := by
    rw [hasElement_iff h]
    refine exists_congr fun bit => ?_
    have hlt := hpaired.lt_of_mem_bits bit
    rw [getLsbD_mask]
    tauto

end Field

namespace Instruction

/-- The subfields of a compiled instruction stay inside elements. -/
theorem isInsideElements_of_compile {description : InstructionDescription}
    {instruction : Instruction} (h : compile description = .ok instruction) :
    ∀ field ∈ instruction.fields, field.IsInsideElements instruction.form := by
  obtain ⟨layout, hlayout, hform, -, hfields⟩ := layout_of_compile h
  obtain ⟨format, hformat, hlayout⟩ := Layout.compile_eq_ok.1 hlayout
  rw [hform, hfields]
  exact Layout.isInsideElements_of_ofFormat_eq_ok (Format.isProper_of_parse hformat) hlayout

/-- **A field is the disjoint union of its parts**, each of which is decided by one element. -/
theorem isUnionOfElements_of_compile {description : InstructionDescription}
    {instruction : Instruction} (h : compile description = .ok instruction) :
    ∀ field ∈ instruction.fields, field.IsUnionOfElements instruction.form := by
  intro field hfield
  exact field.isUnionOfElements (isInsideElements_of_compile h field hfield)
    ((isLaidOut_of_compile h).paired field hfield)

/-- An instruction of two elements with an immediate in both of them. -/
def addImmediate : InstructionDescription :=
  Sample.unmatching "add_1"
    "11110|x:imm12[11]|01000|x:S|xxxx:Rn,0|xxx:imm12[10:8]|xxxx:Rd|xxxxxxxx:imm12[7:0]"
    "Rd == 15 and S == 1 or Rn == 13"

/-- The first element has the highest bit of the immediate, the second one the other bits. -/
theorem isUnionOfElements_of_compile_addImmediate :
    ∃ instruction, compile addImmediate = .ok instruction ∧
      ∃ field ∈ instruction.fields, field.IsUnionOfElements instruction.form ∧
        field.decode 0xf5037478 = 0xf78 ∧
        field.decodeElement 0xf5037478 instruction.form 0 = 0x800 ∧
        field.decodeElement 0xf5037478 instruction.form 1 = 0x778 := by
  have hvalues : ((compile addImmediate).toOption.bind fun instruction =>
      (instruction.field? "imm12").map fun field =>
        (field.decode 0xf5037478, field.decodeElement 0xf5037478 instruction.form 0,
          field.decodeElement 0xf5037478 instruction.form 1)) = some (0xf78, 0x800, 0x778) := by
    decide +kernel
  obtain ⟨instruction, hcompile, hfield⟩ := Option.bind_eq_some_iff.1 hvalues
  obtain ⟨field, hfield, hvalues⟩ := Option.map_eq_some_iff.1 hfield
  obtain ⟨hwhole, hparts⟩ := Prod.mk.inj hvalues
  obtain ⟨hfirst, hsecond⟩ := Prod.mk.inj hparts
  have hcompile := toOption_eq_some.1 hcompile
  have hmem : field ∈ instruction.fields := List.mem_of_find?_eq_some hfield
  exact ⟨instruction, hcompile, field, hmem, isUnionOfElements_of_compile hcompile field hmem,
    hwhole, hfirst, hsecond⟩

end Instruction

end IsaCodec
