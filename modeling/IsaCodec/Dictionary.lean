/-! # Dictionaries

    Finite maps from names to values.  The entries are kept in strictly
    ascending order of their names, so that two dictionaries with the same
    entries are equal and the order of listing is fixed by the names alone. -/

namespace IsaCodec

/-- A finite map from names, its entries in ascending order of the names. -/
structure Dictionary (α : Type) where
  entries : List (String × α)
  ascending : entries.Pairwise (fun a b => a.1 < b.1)

namespace Dictionary

variable {α : Type}

/-- The dictionary without entries. -/
def empty : Dictionary α := ⟨[], .nil⟩

instance : Inhabited (Dictionary α) := ⟨empty⟩

/-! ## Adding an entry -/

/-- Puts an entry into its place; an entry of the same name is replaced. -/
def insertEntry (name : String) (value : α) : List (String × α) → List (String × α)
  | [] => [(name, value)]
  | entry :: rest =>
    if name < entry.1 then (name, value) :: entry :: rest
    else if entry.1 < name then entry :: insertEntry name value rest
    else (name, value) :: rest

private theorem le_of_mem_insertEntry {name : String} {value : α} {entry : String × α}
    {rest : List (String × α)} (h : entry ∈ insertEntry name value rest) :
    entry.1 = name ∨ entry ∈ rest := by
  induction rest with
  | nil => simp_all [insertEntry]
  | cons first rest ih =>
    unfold insertEntry at h
    grind

theorem pairwise_insertEntry (name : String) (value : α) {rest : List (String × α)}
    (h : rest.Pairwise (fun a b => a.1 < b.1)) :
    (insertEntry name value rest).Pairwise (fun a b => a.1 < b.1) := by
  induction rest with
  | nil => simp [insertEntry]
  | cons first rest ih =>
    rw [List.pairwise_cons] at h
    unfold insertEntry
    split
    · rename_i hlt
      refine List.pairwise_cons.2 ⟨fun entry hmem => ?_, List.pairwise_cons.2 h⟩
      rcases List.mem_cons.1 hmem with rfl | hmem
      · exact hlt
      · exact String.lt_trans hlt (h.1 entry hmem)
    · split
      · rename_i hlt
        refine List.pairwise_cons.2 ⟨fun entry hmem => ?_, ih h.2⟩
        rcases le_of_mem_insertEntry hmem with heq | hmem
        · simpa [heq] using hlt
        · exact h.1 entry hmem
      · rename_i hle hge
        have heq : name = first.1 :=
          String.le_antisymm (String.not_lt.1 hge) (String.not_lt.1 hle)
        exact List.pairwise_cons.2 ⟨fun entry hmem => by simpa [heq] using h.1 entry hmem, h.2⟩

/-- Adds an entry; an entry of the same name is replaced. -/
def insert (dictionary : Dictionary α) (name : String) (value : α) : Dictionary α :=
  ⟨insertEntry name value dictionary.entries,
    pairwise_insertEntry name value dictionary.ascending⟩

/-- Adds the entries of a list one after the other. -/
def ofList (entries : List (String × α)) : Dictionary α :=
  entries.foldl (fun dictionary entry => dictionary.insert entry.1 entry.2) empty

/-! ## Looking up -/

/-- The value under a name. -/
def get? (dictionary : Dictionary α) (name : String) : Option α :=
  dictionary.entries.lookup name

/-- The names in ascending order. -/
def names (dictionary : Dictionary α) : List String :=
  dictionary.entries.map (·.1)

/-- Is there a value under this name? -/
def contains (dictionary : Dictionary α) (name : String) : Bool :=
  (dictionary.get? name).isSome

end Dictionary

end IsaCodec
