import IsaCodec.Dictionary
import IsaCodec.Value

/-! # Records

    How a structured value holds a record with named fields.  It is an
    object with the fields as members, in any order and among others, or an
    array of the fields in their order, of which the last ones may be left
    out.  A field may be required, or optional, where null stands for its
    absence. -/

namespace IsaCodec.Record

/-- The fields of a record, in the order of the names. -/
def fields? (names : List String) : Value → Option (List (Option Value))
  | .object members => some (names.map fun name => members.lookup name)
  | .array items =>
    if items.length ≤ names.length then
      some (items.map some ++ List.replicate (names.length - items.length) none)
    else none
  | _ => none

/-- A field that has to be there. -/
def required? {α : Type} (read? : Value → Option α) (field : Option Value) : Option α :=
  field.bind read?

/-- A field that may be missing or null. -/
def optional? {α : Type} (read? : Value → Option α) (field : Option Value) :
    Option (Option α) :=
  match field.bind Value.present? with
  | none => some none
  | some value => (read? value).map some

/-- The text of a string. -/
def string? : Value → Option String
  | .string text => some text
  | _ => none

/-- The items of an array, each read by itself. -/
def array? {α : Type} (read? : Value → Option α) : Value → Option (List α)
  | .array items => items.mapM read?
  | _ => none

/-- The members of an object, which may be missing but not null. -/
def dictionary? : Option Value → Option (Dictionary Value)
  | none => some .empty
  | some (.object members) => some (.ofList members)
  | some _ => none

/-- A value, or null if there is none. -/
def ofOption {α : Type} (write : α → Value) : Option α → Value
  | none => .null
  | some x => write x

end IsaCodec.Record
