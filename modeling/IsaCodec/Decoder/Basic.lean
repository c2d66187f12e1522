import IsaCodec.DecisionTree.Build
import IsaCodec.DecisionTree.Printer
import IsaCodec.Instruction.Compile
import IsaCodec.Registry

/-! # Decoders

    A decoder is made from a description: the instructions are compiled one
    after the other, each may then be edited by a hook and has its fixed bits
    checked, and a decision tree is built for each form that occurs. -/

namespace IsaCodec

/-! ## Options -/

/-- How a decoder works; no option changes what it decodes. -/
structure Options where
  /-- Let trees tell instructions apart by bits that only some of them fix. -/
  splitWildcards : Bool := true
  /-- Number of workers for batches; zero is the same as one. -/
  threads : Nat := 1
  /-- Number of codes that each worker but the last is given at least. -/
  chunkSize : Nat := 4096

namespace Options

/-- Sets whether trees use bits that only some instructions fix. -/
def withSplitWildcards (options : Options) (split : Bool) : Options :=
  { options with splitWildcards := split }

/-- Sets the number of workers, which is at least one. -/
def withThreads (options : Options) (threads : Nat) : Options :=
  { options with threads := max threads 1 }

/-- Sets the least number of codes for a worker, which is at least one. -/
def withChunkSize (options : Options) (chunkSize : Nat) : Options :=
  { options with chunkSize := max chunkSize 1 }

end Options

/-! ## Decoders -/

/-- The compiled instructions of a description and the trees to look them up. -/
structure Decoder where
  namespaceName : Option String
  machine : MachineDescription
  /-- The instructions in order of declaration. -/
  instructions : List Instruction
  /-- A tree for each form, in ascending order of the forms. -/
  trees : List DecisionTree
  /-- Number of bits of the widest form, and so of the codes to look up. -/
  codeBitLen : Nat
  extras : Option Value
  options : Options
  registry : Registry

namespace Decoder

/-- What names in generated text start with: the namespace and an underscore. -/
def namespacePrefix (decoder : Decoder) : String :=
  match decoder.namespaceName with
  | none => ""
  | some name => name ++ "_"

/-- The first instruction of this name. -/
def instruction? (decoder : Decoder) (name : String) : Option Instruction :=
  decoder.instructions.find? (·.name == name)

/-- Number of bytes of the shortest instruction. -/
def minInstructionBytes (decoder : Decoder) : Nat :=
  (decoder.trees.map fun tree => tree.form.byteLen).min?.getD 0

/-- Text of all trees. -/
def treeText (decoder : Decoder) : String :=
  String.join (decoder.trees.map (·.text (Instruction.nameAt decoder.instructions)))

/-! ## Building -/

/-- The indices of the instructions of a form, in ascending order. -/
def indicesOf (form : Form) (instructions : List Instruction) : List Nat :=
  (instructions.zipIdx.filter (·.1.form == form)).map (·.2)

/-- A tree for each form of the instructions. -/
def buildTrees (split : Bool) (instructions : List Instruction) : List DecisionTree :=
  (Ascending.ofList (instructions.map (·.form))).map fun form =>
    .ofInstructions form instructions split (indicesOf form instructions)

/-- An edit of the compiled instructions, one after the other.  What it does to
    an instruction may depend on those that were compiled before it. -/
abbrev Hook := List Instruction → Instruction → Instruction

/-- Compiles instructions, edits each and checks its fixed bits. -/
def compileAll (hook : Hook) (earlier : List Instruction) :
    List InstructionDescription → Except CompileError (List Instruction)
  | [] => .ok []
  | description :: rest => do
    let compiled ← Instruction.compile description
    let instruction := hook earlier compiled
    instruction.checkMask.mapError .layout
    let others ← compileAll hook (earlier ++ [compiled]) rest
    pure (instruction :: others)

/-- Number of bits of the widest instruction. -/
def widest (instructions : List Instruction) : Nat :=
  (instructions.map (·.bitLen)).max?.getD 0

/-- The decoder for instructions that have been compiled. -/
def ofInstructions (options : Options) (registry : Registry) (description : Description)
    (instructions : List Instruction) : Decoder where
  namespaceName := description.decoder.bind (·.namespaceName)
  machine := description.machine
  instructions
  trees := buildTrees options.splitWildcards instructions
  codeBitLen := widest instructions
  extras := description.extras
  options
  registry

/-- The decoder of a description, with a hook that edits the instructions. -/
def buildHooked (options : Options) (registry : Registry) (hook : Hook)
    (description : Description) : Except CompileError Decoder := do
  let instructions ← compileAll hook [] description.instructions
  pure (ofInstructions options registry description instructions)

/-- The decoder of a description, with the same edit for each instruction. -/
def buildWith (options : Options) (registry : Registry) (edit : Instruction → Instruction)
    (description : Description) : Except CompileError Decoder :=
  buildHooked options registry (fun _ => edit) description

/-- The decoder of a description. -/
def build (options : Options) (registry : Registry) (description : Description) :
    Except CompileError Decoder :=
  buildWith options registry id description

end Decoder

end IsaCodec
