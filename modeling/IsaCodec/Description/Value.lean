import IsaCodec.Description.Basic
import IsaCodec.Description.Record

/-! # Descriptions as values

    Descriptions are exchanged as structured values.  Writing gives an object
    with every field; reading accepts records in either form, and ignores
    members that are no fields. -/

namespace IsaCodec

open Record

namespace ByteOrder

/-- A byte order as its name. -/
def toValue (order : ByteOrder) : Value :=
  .string order.text

/-- A byte order from its name, or from an object with the name as its only
    member, of the value null. -/
def ofValue? : Value → Option ByteOrder
  | .string name => ofText? name
  | .object [(name, .null)] => ofText? name
  | _ => none

end ByteOrder

namespace MachineDescription

/-- A machine as a value. -/
def toValue (machine : MachineDescription) : Value :=
  .object [("byteorder", machine.byteOrder.toValue), ("extras", ofOption id machine.extras)]

/-- Reads a machine. -/
def ofValue? (value : Value) : Option MachineDescription := do
  match ← fields? ["byteorder", "extras"] value with
  | [byteOrder, extras] =>
    pure {
      byteOrder := ← required? ByteOrder.ofValue? byteOrder
      extras := ← optional? some extras }
  | _ => none

end MachineDescription

namespace InstructionDescription

/-- An instruction as a value. -/
def toValue (instruction : InstructionDescription) : Value :=
  .object [
    ("name", .string instruction.name),
    ("format", .string instruction.format),
    ("match_condition", ofOption .string instruction.matchCondition),
    ("unmatch_condition", ofOption .string instruction.unmatchCondition),
    ("extras", ofOption id instruction.extras),
    ("field_extras", .object instruction.fieldExtras.entries)]

/-- Reads an instruction. -/
def ofValue? (value : Value) : Option InstructionDescription := do
  match ← fields? ["name", "format", "match_condition", "unmatch_condition", "extras",
      "field_extras"] value with
  | [name, format, matchCondition, unmatchCondition, extras, fieldExtras] =>
    pure {
      name := ← required? string? name
      format := ← required? string? format
      matchCondition := ← optional? string? matchCondition
      unmatchCondition := ← optional? string? unmatchCondition
      extras := ← optional? some extras
      fieldExtras := ← dictionary? fieldExtras }
  | _ => none

end InstructionDescription

namespace DecoderDescription

/-- A decoder as a value. -/
def toValue (decoder : DecoderDescription) : Value :=
  .object [("namespace", ofOption .string decoder.namespaceName)]

/-- Reads a decoder. -/
def ofValue? (value : Value) : Option DecoderDescription := do
  match ← fields? ["namespace"] value with
  | [namespaceName] => pure { namespaceName := ← optional? string? namespaceName }
  | _ => none

end DecoderDescription

namespace Description

/-- A description as a value. -/
def toValue (description : Description) : Value :=
  .object [
    ("machine", description.machine.toValue),
    ("instructions", .array (description.instructions.map InstructionDescription.toValue)),
    ("decoder", ofOption DecoderDescription.toValue description.decoder),
    ("extras", ofOption id description.extras)]

/-- Reads a description. -/
def ofValue? (value : Value) : Option Description := do
  match ← fields? ["machine", "instructions", "decoder", "extras"] value with
  | [machine, instructions, decoder, extras] =>
    pure {
      machine := ← required? MachineDescription.ofValue? machine
      instructions := ← required? (array? InstructionDescription.ofValue?) instructions
      decoder := ← optional? DecoderDescription.ofValue? decoder
      extras := ← optional? some extras }
  | _ => none

end Description

end IsaCodec
