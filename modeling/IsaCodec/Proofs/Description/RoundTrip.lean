import IsaCodec.Description.Value
import Mathlib.Data.List.Forall2

/-! # Writing and reading descriptions

    A description that was written is read again.  Only one thing is lost:
    extras that are null are read as no extras, since null stands for the
    absence of an optional field.  Inside extras, and under the names of
    fields, null is a value like any other.

    * **`fields?_zip`** — a record is read from the object of its fields.
    * **`Dictionary.ofList_entries`** — a dictionary is read from its entries.
    * **`Description.ofValue?_toValue`** — what is read of a description.
    * **`Description.withoutNull_of_ofValue?`** — what was read has no null
      extras, so nothing at all is lost when it is written and read. -/

namespace IsaCodec

/-! ## Dictionaries -/

namespace Dictionary

variable {α : Type}

theorem eq_of_entries_eq {a b : Dictionary α} (h : a.entries = b.entries) : a = b := by
  cases a
  cases b
  cases h
  rfl

/-- An entry whose name comes after all others is put at the end. -/
theorem insertEntry_of_forall_lt {name : String} {value : α} {entries : List (String × α)}
    (h : ∀ entry ∈ entries, entry.1 < name) :
    insertEntry name value entries = entries ++ [(name, value)] := by
  induction entries with
  | nil => rfl
  | cons first rest ih =>
    have hfirst := h first List.mem_cons_self
    rw [insertEntry, if_neg (String.lt_asymm hfirst), if_pos hfirst,
      ih fun entry hentry => h entry (List.mem_cons_of_mem first hentry), List.cons_append]

/-- Entries in order are added to those before them. -/
theorem entries_foldl_insert {entries : List (String × α)} {dictionary : Dictionary α}
    (h : (dictionary.entries ++ entries).Pairwise fun a b => a.1 < b.1) :
    (entries.foldl (fun dictionary entry => dictionary.insert entry.1 entry.2)
      dictionary).entries = dictionary.entries ++ entries := by
  induction entries generalizing dictionary with
  | nil => exact (List.append_nil _).symm
  | cons first rest ih =>
    have hinsert : (dictionary.insert first.1 first.2).entries = dictionary.entries ++ [first] :=
      insertEntry_of_forall_lt fun entry hentry =>
        (List.pairwise_append.1 h).2.2 entry hentry first List.mem_cons_self
    rw [List.append_cons, ← hinsert] at h ⊢
    exact ih h

/-- A dictionary is made from its **entries**. -/
theorem ofList_entries (dictionary : Dictionary α) : ofList dictionary.entries = dictionary :=
  eq_of_entries_eq (entries_foldl_insert dictionary.ascending)

end Dictionary

/-! ## Records -/

namespace Record

variable {α : Type}

theorem map_lookup_zip {names : List String} {values : List Value} (hnodup : names.Nodup)
    (hlength : names.length = values.length) :
    names.map (fun name => (names.zip values).lookup name) = values.map some := by
  induction names generalizing values with
  | nil =>
    cases values with
    | nil => rfl
    | cons value values => cases hlength
  | cons name names ih =>
    cases values with
    | nil => cases hlength
    | cons value values =>
      obtain ⟨hname, hnodup⟩ := List.nodup_cons.1 hnodup
      rw [List.zip_cons_cons, List.map_cons, List.map_cons, List.lookup_cons_self,
        ← ih hnodup (Nat.succ.inj hlength)]
      refine congrArg _ (List.map_congr_left fun other hother => ?_)
      have hne : (other == name) = false := beq_false_of_ne fun heq => hname (heq ▸ hother)
      rw [List.lookup_cons, hne]

/-- A record is read from the object of its **fields**. -/
theorem fields?_zip (names : List String) (values : List Value) (hnodup : names.Nodup)
    (hlength : names.length = values.length) :
    fields? names (.object (names.zip values)) = some (values.map some) := by
  rw [fields?, map_lookup_zip hnodup hlength]

/-- An optional field that is never written as null is read as it was. -/
theorem optional?_ofOption {read? : Value → Option α} {write : α → Value} {field : Option α}
    (h : ∀ x, (write x).present? = some (write x) ∧ read? (write x) = some x) :
    optional? read? (some (ofOption write field)) = some field := by
  cases field with
  | none => rfl
  | some x =>
    obtain ⟨hpresent, hread⟩ := h x
    rw [optional?, ofOption, Option.bind_some, hpresent]
    exact congrArg (Option.map some) hread

/-- The extras that are read of extras: null is the same as none. -/
def dropNull : Option Value → Option Value
  | some .null => none
  | extras => extras

theorem optional?_extras (extras : Option Value) :
    optional? some (some (ofOption id extras)) = some (dropNull extras) := by
  cases extras with
  | none => rfl
  | some value => cases value <;> rfl

/-- Extras that were read are not null. -/
theorem dropNull_of_optional? {field extras : Option Value}
    (h : optional? some field = some extras) : dropNull extras = extras := by
  cases field with
  | none => cases h; rfl
  | some value => cases value <;> cases h <;> rfl

theorem mapM_eq_some {β : Type} {f : α → Option β} {xs : List α} {ys : List β} :
    xs.mapM f = some ys ↔ List.Forall₂ (fun x y => f x = some y) xs ys := by
  induction xs generalizing ys with
  | nil =>
    rw [List.mapM_nil, List.forall₂_nil_left_iff]
    exact Option.some_inj.trans eq_comm
  | cons x xs ih =>
    simp only [List.mapM_cons, Option.bind_eq_bind, Option.bind_eq_some_iff,
      List.forall₂_cons_left_iff, ih]
    constructor
    · rintro ⟨y, hy, ys', hys, heq⟩
      exact ⟨y, ys', hy, hys, (Option.some.inj heq).symm⟩
    · rintro ⟨y, ys', hy, hys, rfl⟩
      exact ⟨y, hy, ys', hys, rfl⟩

/-- Each item of an array is read by itself. -/
theorem array?_eq_some {read? : Value → Option α} {value : Value} {xs : List α} :
    array? read? value = some xs ↔
      ∃ items, value = .array items ∧
        List.Forall₂ (fun item x => read? item = some x) items xs := by
  cases value with
  | array items =>
    constructor
    · exact fun h => ⟨items, rfl, mapM_eq_some.1 h⟩
    · rintro ⟨_, heq, h⟩
      cases heq
      exact mapM_eq_some.2 h
  | _ =>
    constructor
    · intro h
      cases h
    · rintro ⟨_, heq, -⟩
      cases heq

theorem array?_map {read? : Value → Option α} {write : α → Value} {f : α → α}
    (h : ∀ x, read? (write x) = some (f x)) (xs : List α) :
    array? read? (.array (xs.map write)) = some (xs.map f) := by
  refine array?_eq_some.2 ⟨_, rfl, ?_⟩
  rw [List.forall₂_map_left_iff, List.forall₂_map_right_iff, List.forall₂_same]
  exact fun x _ => h x

theorem dictionary?_entries (dictionary : Dictionary Value) :
    dictionary? (some (.object dictionary.entries)) = some dictionary :=
  congrArg some dictionary.ofList_entries

end Record

open Record

/-! ## Machines -/

namespace MachineDescription

theorem ofValue?_eq_some {value : Value} {machine : MachineDescription} :
    ofValue? value = some machine ↔ ∃ byteOrder extras,
      fields? ["byteorder", "extras"] value = some [byteOrder, extras] ∧
      required? ByteOrder.ofValue? byteOrder = some machine.byteOrder ∧
      optional? some extras = some machine.extras := by
  unfold ofValue?
  rw [Option.bind_eq_bind, Option.bind_eq_some_iff]
  constructor
  · rintro ⟨fields, hfields, hread⟩
    split at hread
    · simp only [Option.bind_eq_bind, Option.bind_eq_some_iff] at hread
      obtain ⟨byteOrder, hbyteOrder, extras, hextras, heq⟩ := hread
      cases heq
      exact ⟨_, _, hfields, hbyteOrder, hextras⟩
    · cases hread
  · rintro ⟨byteOrder, extras, hfields, hbyteOrder, hextras⟩
    refine ⟨_, hfields, ?_⟩
    simp only [hbyteOrder, hextras, Option.bind_eq_bind, Option.bind_some]
    rfl

/-- The machine without extras that are null. -/
def withoutNull (machine : MachineDescription) : MachineDescription :=
  { machine with extras := dropNull machine.extras }

theorem ofValue?_toValue (machine : MachineDescription) :
    ofValue? machine.toValue = some machine.withoutNull :=
  ofValue?_eq_some.2 ⟨_, _, fields?_zip _ [_, _] (by decide) rfl,
    ByteOrder.ofText?_text machine.byteOrder, optional?_extras machine.extras⟩

theorem withoutNull_of_ofValue? {value : Value} {machine : MachineDescription}
    (h : ofValue? value = some machine) : machine.withoutNull = machine := by
  obtain ⟨_, _, -, -, hextras⟩ := ofValue?_eq_some.1 h
  rw [withoutNull, dropNull_of_optional? hextras]

end MachineDescription

/-! ## Instructions -/

namespace InstructionDescription

/-- The instruction without extras that are null. -/
def withoutNull (instruction : InstructionDescription) : InstructionDescription :=
  { instruction with extras := dropNull instruction.extras }

theorem ofValue?_eq_some {value : Value} {instruction : InstructionDescription} :
    ofValue? value = some instruction ↔
      ∃ name format matchCondition unmatchCondition extras fieldExtras,
      fields? ["name", "format", "match_condition", "unmatch_condition", "extras",
        "field_extras"] value =
        some [name, format, matchCondition, unmatchCondition, extras, fieldExtras] ∧
      required? string? name = some instruction.name ∧
      required? string? format = some instruction.format ∧
      optional? string? matchCondition = some instruction.matchCondition ∧
      optional? string? unmatchCondition = some instruction.unmatchCondition ∧
      optional? some extras = some instruction.extras ∧
      dictionary? fieldExtras = some instruction.fieldExtras := by
  unfold ofValue?
  rw [Option.bind_eq_bind, Option.bind_eq_some_iff]
  constructor
  · rintro ⟨fields, hfields, hread⟩
    split at hread
    · simp only [Option.bind_eq_bind, Option.bind_eq_some_iff] at hread
      obtain ⟨name, hname, format, hformat, matchCondition, hmatch, unmatchCondition, hunmatch,
        extras, hextras, fieldExtras, hfieldExtras, heq⟩ := hread
      cases heq
      exact ⟨_, _, _, _, _, _, hfields, hname, hformat, hmatch, hunmatch, hextras, hfieldExtras⟩
    · cases hread
  · rintro ⟨name, format, matchCondition, unmatchCondition, extras, fieldExtras, hfields, hname,
      hformat, hmatch, hunmatch, hextras, hfieldExtras⟩
    refine ⟨_, hfields, ?_⟩
    simp only [hname, hformat, hmatch, hunmatch, hextras, hfieldExtras, Option.bind_eq_bind,
      Option.bind_some]
    rfl

theorem ofValue?_toValue (instruction : InstructionDescription) :
    ofValue? instruction.toValue = some instruction.withoutNull := by
  have hcondition : ∀ condition : Option String,
      optional? string? (some (ofOption .string condition)) = some condition :=
    fun _ => optional?_ofOption fun _ => ⟨rfl, rfl⟩
  exact ofValue?_eq_some.2 ⟨_, _, _, _, _, _, fields?_zip _ [_, _, _, _, _, _] (by decide) rfl,
    rfl, rfl, hcondition instruction.matchCondition, hcondition instruction.unmatchCondition,
    optional?_extras instruction.extras, dictionary?_entries instruction.fieldExtras⟩

theorem withoutNull_of_ofValue? {value : Value} {instruction : InstructionDescription}
    (h : ofValue? value = some instruction) : instruction.withoutNull = instruction := by
  obtain ⟨_, _, _, _, _, _, -, -, -, -, -, hextras, -⟩ := ofValue?_eq_some.1 h
  rw [withoutNull, dropNull_of_optional? hextras]

end InstructionDescription

/-! ## Decoders -/

namespace DecoderDescription

theorem ofValue?_toValue (decoder : DecoderDescription) :
    ofValue? decoder.toValue = some decoder := by
  have hfields : fields? ["namespace"] decoder.toValue =
      some [some (ofOption .string decoder.namespaceName)] := fields?_zip _ [_] (by decide) rfl
  have hname : optional? string? (some (ofOption .string decoder.namespaceName)) =
      some decoder.namespaceName := optional?_ofOption fun _ => ⟨rfl, rfl⟩
  simp only [ofValue?, hfields, hname, Option.bind_eq_bind, Option.bind_some]
  rfl

end DecoderDescription

/-! ## Descriptions -/

namespace Description

theorem ofValue?_eq_some {value : Value} {description : Description} :
    ofValue? value = some description ↔ ∃ machine instructions decoder extras,
      fields? ["machine", "instructions", "decoder", "extras"] value =
        some [machine, instructions, decoder, extras] ∧
      required? MachineDescription.ofValue? machine = some description.machine ∧
      required? (array? InstructionDescription.ofValue?) instructions =
        some description.instructions ∧
      optional? DecoderDescription.ofValue? decoder = some description.decoder ∧
      optional? some extras = some description.extras := by
  unfold ofValue?
  rw [Option.bind_eq_bind, Option.bind_eq_some_iff]
  constructor
  · rintro ⟨fields, hfields, hread⟩
    split at hread
    · simp only [Option.bind_eq_bind, Option.bind_eq_some_iff] at hread
      obtain ⟨machine, hmachine, instructions, hinstructions, decoder, hdecoder, extras, hextras,
        heq⟩ := hread
      cases heq
      exact ⟨_, _, _, _, hfields, hmachine, hinstructions, hdecoder, hextras⟩
    · cases hread
  · rintro ⟨machine, instructions, decoder, extras, hfields, hmachine, hinstructions, hdecoder,
      hextras⟩
    refine ⟨_, hfields, ?_⟩
    simp only [hmachine, hinstructions, hdecoder, hextras, Option.bind_eq_bind, Option.bind_some]
    rfl

/-- The description without extras that are null: those of the machine, of the instructions and
    its own. -/
def withoutNull (description : Description) : Description :=
  { description with
    machine := description.machine.withoutNull
    instructions := description.instructions.map InstructionDescription.withoutNull
    extras := dropNull description.extras }

/-- Of a description that was written all is read but **extras that are null**. -/
theorem ofValue?_toValue (description : Description) :
    ofValue? description.toValue = some description.withoutNull := by
  have hdecoder : optional? DecoderDescription.ofValue?
      (some (ofOption DecoderDescription.toValue description.decoder)) =
        some description.decoder :=
    optional?_ofOption fun decoder => ⟨rfl, decoder.ofValue?_toValue⟩
  exact ofValue?_eq_some.2 ⟨_, _, _, _, fields?_zip _ [_, _, _, _] (by decide) rfl,
    description.machine.ofValue?_toValue,
    array?_map InstructionDescription.ofValue?_toValue description.instructions,
    hdecoder, optional?_extras description.extras⟩

/-- A description that was read has **no extras that are null**. -/
theorem withoutNull_of_ofValue? {value : Value} {description : Description}
    (h : ofValue? value = some description) : description.withoutNull = description := by
  obtain ⟨machine, instructions, _, _, -, hmachine, hinstructions, -, hextras⟩ :=
    ofValue?_eq_some.1 h
  have hmachine : description.machine.withoutNull = description.machine := by
    obtain ⟨_, -, hmachine⟩ := Option.bind_eq_some_iff.1 hmachine
    exact MachineDescription.withoutNull_of_ofValue? hmachine
  have hinstructions : description.instructions.map InstructionDescription.withoutNull =
      description.instructions := by
    obtain ⟨_, -, hinstructions⟩ := Option.bind_eq_some_iff.1 hinstructions
    obtain ⟨items, -, hitems⟩ := array?_eq_some.1 hinstructions
    generalize description.instructions = list at hitems ⊢
    induction hitems with
    | nil => rfl
    | cons hitem _ ih =>
      rw [List.map_cons, ih, InstructionDescription.withoutNull_of_ofValue? hitem]
  rw [withoutNull, hmachine, hinstructions, dropNull_of_optional? hextras]

/-- **Round trip**: a description is read from the value as which it is written, and all that is
    lost are extras that are null.  So whatever value a description was read from, it is the same
    after it has been written and read again. -/
theorem ofValue?_toValue_agrees :
    (∀ description : Description,
      ofValue? description.toValue = some description.withoutNull) ∧
    ∀ value description, ofValue? value = some description →
      ofValue? description.toValue = some description := by
  constructor
  · exact ofValue?_toValue
  · intro value description hread
    rw [ofValue?_toValue, withoutNull_of_ofValue? hread]

/-- The number 1.5. -/
def oneAndHalf : FiniteFloat :=
  ⟨0x3ff8000000000000, by decide⟩

/-- A description as arrays, with null as the extras of the instruction, and with null and a number
    that is no integer among those of its fields; conditions are left out, and the decoder has no
    namespace. -/
theorem ofValue?_toValue_agrees_arrays :
    let instruction : InstructionDescription :=
      { name := "a", format := "xx:f|xx:g", matchCondition := none, unmatchCondition := none,
        extras := none,
        fieldExtras := (Dictionary.empty.insert "f" .null).insert "g" (.float oneAndHalf) }
    let description : Description := ⟨⟨.little, none⟩, [instruction], some ⟨none⟩, none⟩
    ofValue? (.array [.array [.string "little"],
        .array [.object [("format", .string "xx:f|xx:g"), ("extras", .null), ("name", .string "a"),
          ("field_extras", .object [("g", .float oneAndHalf), ("f", .null)]),
          ("comment", .bool true)]],
        .object []]) = some description ∧
      ofValue? description.toValue = some description := by
  intro instruction description
  have hread : ofValue? (.array [.array [.string "little"],
      .array [.object [("format", .string "xx:f|xx:g"), ("extras", .null), ("name", .string "a"),
        ("field_extras", .object [("g", .float oneAndHalf), ("f", .null)]),
        ("comment", .bool true)]],
      .object []]) = some description := by
    rfl
  exact ⟨hread, ofValue?_toValue_agrees.2 _ description hread⟩

end Description

end IsaCodec
