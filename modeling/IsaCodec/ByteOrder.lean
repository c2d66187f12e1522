/-! # Byte orders

    The order in which the bytes of an encoding element follow each other. -/

namespace IsaCodec

/-- Which byte of an element comes first: the least or the most significant one. -/
inductive ByteOrder where
  | little
  | big
  deriving DecidableEq

namespace ByteOrder

/-- Name of the order. -/
def text : ByteOrder → String
  | little => "little"
  | big => "big"

/-- The order of this name. -/
def ofText? (text : String) : Option ByteOrder :=
  if text = "little" then some little
  else if text = "big" then some big
  else none

@[simp] theorem ofText?_text (order : ByteOrder) : ofText? order.text = some order := by
  cases order <;> rfl

/-- A text that names no byte order. -/
structure Unknown where
  text : String
  deriving DecidableEq

/-- Wording of the error. -/
def Unknown.message (error : Unknown) : String :=
  "unknown byte order \"" ++ error.text ++ "\""

/-- Reads the name of a byte order. -/
def parse (text : String) : Except Unknown ByteOrder :=
  match ofText? text with
  | some order => .ok order
  | none => .error ⟨text⟩

end ByteOrder

end IsaCodec
