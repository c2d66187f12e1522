import IsaCodec.Instruction.Compile
import IsaCodec.Proofs.Layout.Compiled
import IsaCodec.Sample

/-! # Meaning of formats

    A compiled instruction is, bit by bit, what its format says.

    * **Fixed bits** — item `k` of a pattern of `n` items stands for bit
      `n - 1 - k`: a bit that is not free is fixed, and to the value given.
    * **Fields** — the bits of a field are paired with bits of its value, one
      to one, and decoding moves each bit to its partner.
    * **Sizes** — a field and the instruction are stored in the smallest unit
      that holds all their bits. -/

namespace IsaCodec

/-! ## Storage units -/

namespace Code

/-- Sizes of the storage units in bits. -/
def units : List Nat := [8, 16, 32, 64]

/-- A size is the smallest one of a unit in which something fits. -/
structure IsSmallestUnit (size : Nat) (fits : Nat → Prop) : Prop where
  unit : size ∈ units
  enough : fits size
  least : ∀ other ∈ units, fits other → size ≤ other

theorem storageBits_isSmallestUnit {bits : Nat} (h : bits ≤ 64) :
    IsSmallestUnit (storageBits bits) (bits ≤ ·) := by
  refine ⟨?_, le_storageBits h, fun other hother hfits => ?_⟩
  · unfold storageBits units
    grind
  · unfold storageBits
    simp only [units, List.mem_cons, List.not_mem_nil, or_false] at hother
    grind

end Code

/-! ## Formats and instructions -/

/-- An instruction has the meaning of a format. -/
structure Format.IsCompiledTo (format : Format) (instruction : Instruction) : Prop where
  bitLen_pos : 1 ≤ format.pattern.length
  form : instruction.form.elementBitLen * instruction.form.elementCount = format.pattern.length
  bitLen_eq : instruction.form.bitLen = format.pattern.length
  bitLen_le : format.pattern.length ≤ 64
  /-- The bits that are not free are fixed. -/
  mask : ∀ k (hk : k < format.pattern.length),
    instruction.fixed.mask.getLsbD (format.pattern.length - 1 - k) = true ↔
      format.pattern[k] ≠ .any
  /-- They are fixed to the value given. -/
  bits : ∀ k (hk : k < format.pattern.length),
    instruction.fixed.bits.getLsbD (format.pattern.length - 1 - k) = true ↔
      format.pattern[k] = .one
  /-- No bit above the pattern is fixed. -/
  above : ∀ i, format.pattern.length ≤ i →
    instruction.fixed.mask.getLsbD i = false ∧ instruction.fixed.bits.getLsbD i = false
  names : ∀ name, name ∈ instruction.fields.map Field.name ↔
    ∃ segment ∈ format.segments, segment.name = some name
  distinct : (instruction.fields.map Field.name).Nodup
  /-- The pairing of instruction bits and bits of the value is one to one. -/
  paired : ∀ field ∈ instruction.fields,
    (format.bitsOf field.name).length = (format.bitsInField field.name).length ∧
      (format.bitsOf field.name).Nodup ∧ (format.bitsInField field.name).Nodup
  /-- A bit of the value is set if its partner is. -/
  decode : ∀ field ∈ instruction.fields, ∀ code v,
    (field.decode code).getLsbD v = true ↔
      ∃ bit, (bit, v) ∈ (format.bitsOf field.name).zip (format.bitsInField field.name) ∧
        code.getLsbD bit = true
  disjoint : ∀ a ∈ instruction.fields, ∀ b ∈ instruction.fields, a.name ≠ b.name →
    (format.bitsOf a.name).Disjoint (format.bitsOf b.name)
  highest : ∀ field ∈ instruction.fields,
    field.msb ∈ format.bitsOf field.name ∧ ∀ bit ∈ format.bitsOf field.name, bit ≤ field.msb
  order : instruction.fields.Pairwise fun a b => b.msb < a.msb
  /-- A field is stored in the smallest unit that has all bits of its value. -/
  fieldStorage : ∀ field ∈ instruction.fields,
    Code.IsSmallestUnit field.storageBits fun size =>
      ∀ v ∈ format.bitsInField field.name, v < size
  storage : Code.IsSmallestUnit instruction.storageBits (format.pattern.length ≤ ·)

namespace Format

/-! ## Fields -/

section Declares

variable {format : Format} {field : Field}

theorem Declares.paired (h : format.Declares field) :
    (format.bitsOf field.name).length = (format.bitsInField field.name).length ∧
      (format.bitsOf field.name).Nodup ∧ (format.bitsInField field.name).Nodup := by
  refine ⟨?_, nodup_bitsIn, h.bitsInField ▸ h.nodup⟩
  rw [← h.bits, ← h.bitsInField, field.length_bits, field.length_bitsInField]

theorem Declares.getLsbD_decode (h : format.Declares field) (code : Code) (v : Nat) :
    (field.decode code).getLsbD v = true ↔
      ∃ bit, (bit, v) ∈ (format.bitsOf field.name).zip (format.bitsInField field.name) ∧
        code.getLsbD bit = true := by
  rw [← h.bits, ← h.bitsInField, field.getLsbD_decode]
  constructor
  · intro h
    obtain ⟨-, hpair⟩ := h
    exact hpair
  · intro h
    obtain ⟨bit, hpair, hcode⟩ := h
    exact ⟨h.lt v (List.of_mem_zip hpair).2, bit, hpair, hcode⟩

theorem Declares.storageBits_isSmallestUnit (h : format.Declares field) :
    Code.IsSmallestUnit field.storageBits fun size =>
      ∀ v ∈ format.bitsInField field.name, v < size := by
  -- A size is enough for all bits of the value if it is for as many as there are up to the top.
  obtain ⟨hlt, hleast⟩ := field.valueBits_isLeast h.subfields
  have hsmallest := Code.storageBits_isSmallestUnit (hleast 64 h.lt)
  rw [← h.bitsInField]
  refine ⟨hsmallest.unit, fun v hv => ?_, fun other hother hfits => ?_⟩
  · exact Nat.lt_of_lt_of_le (hlt v hv) hsmallest.enough
  · exact hsmallest.least other hother (hleast other hfits)

end Declares

/-! ## Instructions -/

theorem LaysOut.isCompiledTo {format : Format} {layout : Layout} {instruction : Instruction}
    (hproper : format.IsProper) (h : format.LaysOut layout) (hform : instruction.form = layout.form)
    (hfixed : instruction.fixed = layout.fixed) (hfields : instruction.fields = layout.fields) :
    format.IsCompiledTo instruction where
  bitLen_pos := hproper.bitLen_pos
  form := hform ▸ h.form
  bitLen_eq := hform ▸ h.bitLen_eq
  bitLen_le := h.width
  mask k hk := by
    rw [hfixed, h.fixed, FixedBits.ofPattern_eq]
    simp [FixedBits.getLsbD_bitsWhere_of_lt _ h.width hk]
  bits k hk := by
    rw [hfixed, h.fixed, FixedBits.ofPattern_eq]
    simp [FixedBits.getLsbD_bitsWhere_of_lt _ h.width hk]
  above i hi := by
    rw [hfixed, h.fixed, FixedBits.ofPattern_eq]
    exact ⟨FixedBits.getLsbD_bitsWhere_of_le _ hi, FixedBits.getLsbD_bitsWhere_of_le _ hi⟩
  names := hfields ▸ h.names
  distinct := hfields ▸ h.nodup
  paired field hfield := (h.declares field (hfields ▸ hfield)).paired
  decode field hfield := (h.declares field (hfields ▸ hfield)).getLsbD_decode
  disjoint a _ b _ hne := disjoint_bitsIn hne
  highest field hfield := (h.declares field (hfields ▸ hfield)).msb_isGreatest
  order := hfields ▸ h.order
  fieldStorage field hfield := (h.declares field (hfields ▸ hfield)).storageBits_isSmallestUnit
  storage := by
    rw [Instruction.storageBits, Instruction.bitLen, hform, h.bitLen_eq]
    exact Code.storageBits_isSmallestUnit h.width

end Format

/-! ## Compilation -/

theorem Layout.compile_eq_ok {name format : String} {extras : Dictionary Value} {layout : Layout} :
    compile name format extras = .ok layout ↔
      ∃ read, Format.parse format = .ok read ∧ ofFormat read extras = .ok layout := by
  unfold compile
  cases Format.parse format with
  | ok read => simp [mapError_eq_ok]
  | error fault => simp

namespace Instruction

/-- Conditions leave the layout as it is. -/
theorem of_withConditions {instruction compiled : Instruction}
    {matchText unmatchText : Option String}
    (h : instruction.withConditions matchText unmatchText = .ok compiled) :
    compiled.form = instruction.form ∧ compiled.fixed = instruction.fixed ∧
      compiled.fields = instruction.fields := by
  obtain ⟨matchCondition, -, hunmatch⟩ := bind_eq_ok.1 h
  obtain ⟨unmatchCondition, -, heq⟩ := bind_eq_ok.1 hunmatch
  obtain rfl := pure_eq_ok.1 heq
  exact ⟨rfl, rfl, rfl⟩

theorem layout_of_compile {description : InstructionDescription} {instruction : Instruction}
    (h : compile description = .ok instruction) :
    ∃ layout, Layout.compile description.name description.format description.fieldExtras =
        .ok layout ∧
      instruction.form = layout.form ∧ instruction.fixed = layout.fixed ∧
      instruction.fields = layout.fields := by
  unfold compile at h
  cases hlayout : Layout.compile description.name description.format description.fieldExtras with
  | error fault =>
    rw [hlayout] at h
    cases h
  | ok layout =>
    rw [hlayout] at h
    exact ⟨layout, rfl, of_withConditions (mapError_eq_ok.1 h)⟩

/-- **Compilation keeps the meaning**: the format of a description that is compiled can be read,
    and the instruction is bit by bit what the format says. -/
theorem isCompiledTo_of_compile {description : InstructionDescription} {instruction : Instruction}
    (h : compile description = .ok instruction) :
    ∃ format, Format.parse description.format = .ok format ∧ format.IsCompiledTo instruction := by
  obtain ⟨layout, hlayout, hform, hfixed, hfields⟩ := layout_of_compile h
  obtain ⟨format, hformat, hlayout⟩ := Layout.compile_eq_ok.1 hlayout
  have hproper := Format.isProper_of_parse hformat
  have hlaysOut := Layout.laysOut_of_ofFormat_eq_ok hproper hlayout
  exact ⟨format, hformat, hlaysOut.isCompiledTo hproper hform hfixed hfields⟩

/-- An instruction with a field whose ranges are neither in order nor next to each other. -/
def addi4spn : InstructionDescription :=
  Sample.matching "c_addi4spn" "000|xxxxxxxx:nzuimm[5:4,9:6,2,3]|xxx:rd|00" "nzuimm != 0"

theorem isCompiledTo_of_compile_addi4spn :
    ∃ instruction, compile addi4spn = .ok instruction ∧
      ∃ format, Format.parse addi4spn.format = .ok format ∧ format.IsCompiledTo instruction ∧
        format.bitsOf "nzuimm" = [12, 11, 10, 9, 8, 7, 6, 5] ∧
        format.bitsInField "nzuimm" = [5, 4, 9, 8, 7, 6, 2, 3] := by
  have hcompiled : (compile addi4spn).toOption.isSome := by decide +kernel
  obtain ⟨instruction, hcompile⟩ := exists_eq_ok hcompiled
  obtain ⟨format, hformat, hmeaning⟩ := isCompiledTo_of_compile hcompile
  have hbits : (Format.parse addi4spn.format).toOption.map
      (fun format => (format.bitsOf "nzuimm", format.bitsInField "nzuimm")) =
        some ([12, 11, 10, 9, 8, 7, 6, 5], [5, 4, 9, 8, 7, 6, 2, 3]) := by
    decide +kernel
  rw [hformat] at hbits
  obtain ⟨hbitsOf, hbitsInField⟩ := Prod.mk.inj (Option.some.inj hbits)
  exact ⟨instruction, hcompile, format, hformat, hmeaning, hbitsOf, hbitsInField⟩

end Instruction

end IsaCodec
