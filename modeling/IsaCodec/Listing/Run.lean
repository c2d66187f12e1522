import IsaCodec.Decoder.Bytes
import IsaCodec.Listing.Flag
import IsaCodec.Listing.Normal
import IsaCodec.Listing.Parser

/-! # Running listings

    An entry passes if its bytes decode to the expected text and the first
    instruction found is as long as the bytes, or nothing is found and
    nothing is expected.  A listing passes if all of its entries do.  An
    entry that cannot be read ends the run. -/

namespace IsaCodec.Listing

/-- What decoding an entry gave. -/
structure Result where
  /-- Length of the first instruction; zero if there is none. -/
  byteLen : Nat
  text : String
  deriving DecidableEq

/-- Decodes the bytes of an entry. -/
def Entry.decode (entry : Entry) (decoder : Decoder) : Result :=
  match (decoder.decodeBytes entry.bytes).outcome with
  | .error error => ⟨0, "error: " ++ error.message⟩
  | .ok found => ⟨(found.head?.map Decoded.byteLen).getD 0, renderDecoded found⟩

/-- What decoding an entry has to give. -/
def Entry.expectedResult (entry : Entry) : Result :=
  let text := normalize entry.expected
  ⟨if text = "unknown" then 0 else entry.bytes.length, text⟩

/-- Does an entry decode as expected? -/
def Entry.passes (entry : Entry) (decoder : Decoder) : Bool :=
  entry.decode decoder = entry.expectedResult

/-- Why a listing does not pass. -/
inductive RunError where
  | malformed (error : Error)
  /-- So many entries decode to something else. -/
  | failed (count : Nat)
  deriving DecidableEq

/-- Wording of the error for a listing from a file. -/
def RunError.message (file : String) : RunError → String
  | malformed error => error.message file
  | failed count => "failed " ++ toString count ++ " tests"

/-- Runs a listing of fewer than `2 ^ 31` entries, with a decoder for each entry. -/
def run (create : Entry → Decoder) (text : String) : Except RunError Unit := do
  let entries ← ((read text).mapM id).mapError .malformed
  match entries.countP fun entry => !entry.passes (create entry) with
  | 0 => pure ()
  | count => throw (.failed count)

/-! ## Decoders by flags -/

/-- A description and options as the flags of a comment change them:
    `little` sets the byte order, `split` whether trees use wildcards. -/
def applyFlag (setting : Description × Options) (flag : Flag) : Description × Options :=
  let (description, options) := setting
  if flag.name = "little" then
    let byteOrder := if flag.isSet then .little else .big
    ({ description with machine := { description.machine with byteOrder } }, options)
  else if flag.name = "split" then (description, options.withSplitWildcards flag.isSet)
  else setting

/-- Builds a decoder as the flags of an entry's comment ask. -/
def createDecoder (registry : Registry) (description : Description) (entry : Entry) :
    Except CompileError Decoder :=
  let (description, options) := (flags entry.comment).foldl applyFlag (description, {})
  Decoder.build options registry description

/-- Runs a listing on the decoders that its flags ask for. -/
def runDescription (registry : Registry) (description : Description) (text : String) :
    Except CompileError (Except RunError Unit) := do
  let decoder ← Decoder.build {} .empty description
  pure (run (fun entry =>
    match createDecoder registry description entry with
    | .ok decoder => decoder
    | .error _ => decoder) text)

end IsaCodec.Listing
