import IsaCodec.Dictionary
import IsaCodec.Text.Quoted
import IsaCodec.Traced

/-! # Registries

    A registry gives the names by which conditions call functions their
    meaning.  A function gets its argument and the context of the
    evaluation: the instruction and the code. -/

namespace IsaCodec

/-- The functions that conditions can call. -/
abbrev Registry := Dictionary (Code → Context → Code)

namespace Registry

/-- The names of the functions in ascending order, quoted, between braces. -/
def text (registry : Registry) : String :=
  "\x7b" ++ ", ".intercalate (registry.names.map Text.quoted) ++ "\x7d"

/-- The function of this name; a name that is not registered is a fault of the
    instruction whose condition uses it. -/
def find (registry : Registry) (instruction : Instruction) (function : String) :
    Except ConditionError (Code → Context → Code) :=
  match registry.get? function with
  | some f => .ok f
  | none => .error ⟨instruction.name, .undefinedFunction function⟩

end Registry

end IsaCodec
