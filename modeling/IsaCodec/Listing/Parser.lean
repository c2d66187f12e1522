import IsaCodec.Listing.Basic
import IsaCodec.Text.Lines
import IsaCodec.Text.Number
import IsaCodec.Text.White

/-! # Reading listings

    Entries are read one at a time.  Reading can go on after an error, on the
    next line and with the address that was reached. -/

namespace IsaCodec.Listing

/-! ## Bytes -/

/-- The bytes of pairs of hexadecimal digits. -/
def bytesOfDigits : List Char → List Byte
  | high :: low :: rest =>
    BitVec.ofNat 8 (((Text.numeral? 16 [high, low]).getD 0)) :: bytesOfDigits rest
  | _ => []

/-- Reads groups of hexadecimal digits.  They end before a text with fewer
    than two digits in front, and after two or more blanks. -/
def readBytes (s : List Char) : Except Fault (List Byte × List Char) :=
  if s.isEmpty then .ok ([], s)
  else
    let rest := Text.trimStart s
    if 1 < (s.takeWhile Text.isWhite).length then .ok ([], rest)
    else
      let digits := rest.takeWhile Text.isHexDigit
      if _h : digits.length < 2 then .ok ([], rest)
      else if digits.length % 2 ≠ 0 then .error (.oddDigits (String.ofList digits))
      else do
        let (bytes, rest) ← readBytes (rest.dropWhile Text.isHexDigit)
        pure (bytesOfDigits digits ++ bytes, rest)
termination_by s.length
decreasing_by
  have htrim : (Text.trimStart s).length ≤ s.length := (List.dropWhile_sublist _).length_le
  have hdigits : 2 ≤ ((Text.trimStart s).takeWhile Text.isHexDigit).length := Nat.not_lt.1 _h
  have hsplit := congrArg List.length
    (List.takeWhile_append_dropWhile (p := Text.isHexDigit) (l := Text.trimStart s))
  rw [List.length_append] at hsplit
  change ((Text.trimStart s).dropWhile Text.isHexDigit).length < s.length
  omega

/-! ## Addresses -/

/-- The value of an address in hexadecimal; a plus sign may come before it. -/
def address? : List Char → Option Nat
  | '+' :: digits => Text.boundedNumeral? 16 64 digits
  | digits => Text.boundedNumeral? 16 64 digits

/-- Can the text before a colon be meant as an address?  It is a single word
    of at most 16 bytes. -/
def looksLikeAddress (head : List Char) : Bool :=
  !head.isEmpty && (String.ofList head).utf8ByteSize < 17 && !head.any Text.isWhite

/-- Reads the address of an entry, if it has one. -/
def readAddress (body : List Char) : Except Fault (Option Nat × List Char) :=
  match Text.cutAt? ':' body with
  | none => .ok (none, body)
  | some (before, rest) =>
    let head := Text.trim before
    if looksLikeAddress head then
      match address? head with
      | none => .error (.invalidAddress (String.ofList head))
      | some address => .ok (some address, Text.trimStart rest)
    else .ok (none, body)

/-! ## Entries -/

/-- How far a listing has been read. -/
structure Cursor where
  /-- The lines that are left. -/
  lines : List (List Char)
  /-- Number of lines that were read. -/
  line : Nat
  /-- Where an entry without an address is. -/
  address : Nat

/-- The start of a listing. -/
def Cursor.ofText (text : String) : Cursor :=
  ⟨Text.lines text.toList, 0, 0⟩

/-- The parts of a line before and after the first `#`, trimmed. -/
def splitComment (line : List Char) : List Char × List Char :=
  match Text.cutAt? '#' line with
  | none => (Text.trim line, [])
  | some (body, comment) => (Text.trim body, Text.trim comment)

/-- Reads the entry of the line that was taken last. -/
def Cursor.readEntry (cursor : Cursor) (body comment : List Char) : Except Error Entry × Cursor :=
  match readAddress body with
  | .error fault => (.error ⟨cursor.line, fault⟩, cursor)
  | .ok (address, rest) =>
    let cursor := { cursor with address := address.getD cursor.address }
    match readBytes rest with
    | .error fault => (.error ⟨cursor.line, fault⟩, cursor)
    | .ok ([], _) => (.error ⟨cursor.line, .noBytes⟩, cursor)
    | .ok (bytes, expected) =>
      (.ok {
          line := cursor.line
          comment := String.ofList comment
          address := cursor.address
          bytes
          expected := String.ofList (Text.trim expected) },
        { cursor with address := cursor.address + bytes.length })

/-- Reads the next entry from the lines that are left, after `line` lines. -/
def nextEntry (line address : Nat) : List (List Char) → Option (Except Error Entry × Cursor)
  | [] => none
  | text :: rest =>
    let (body, comment) := splitComment text
    if body.isEmpty then nextEntry (line + 1) address rest
    else some (Cursor.readEntry ⟨rest, line + 1, address⟩ body comment)

/-- Reads the next entry, if there is one; blank lines and lines with a
    comment only are skipped. -/
def Cursor.next? (cursor : Cursor) : Option (Except Error Entry × Cursor) :=
  nextEntry cursor.line cursor.address cursor.lines

/-- What is read takes at least one line. -/
theorem length_nextEntry {line address : Nat} {lines : List (List Char)}
    {result : Except Error Entry} {cursor : Cursor}
    (h : nextEntry line address lines = some (result, cursor)) :
    cursor.lines.length < lines.length := by
  induction lines generalizing line with
  | nil => simp [nextEntry] at h
  | cons text rest ih =>
    simp only [nextEntry] at h
    split at h
    · have := ih h
      simp; omega
    · have : cursor.lines = rest := by
        rw [Option.some.injEq, Cursor.readEntry] at h
        split at h
        · simp only [Prod.mk.injEq] at h; simp [← h.2]
        · split at h <;> simp only [Prod.mk.injEq] at h <;> simp [← h.2]
      simp [this]

/-- All entries and errors that follow. -/
def Cursor.readAll (cursor : Cursor) : List (Except Error Entry) :=
  match _h : cursor.next? with
  | none => []
  | some (result, next) => result :: next.readAll
termination_by cursor.lines.length
decreasing_by exact length_nextEntry ‹_›

/-- All entries and errors of a listing. -/
def read (text : String) : List (Except Error Entry) :=
  (Cursor.ofText text).readAll

/-- The bytes of all entries of a listing, or its first error. -/
def readBytesOf (text : String) : Except Error (List Byte) := do
  let entries ← (read text).mapM id
  pure (entries.flatMap (·.bytes))

end IsaCodec.Listing
