import IsaCodec.Listing.Basic
import IsaCodec.Proofs.Text.Numeral
import IsaCodec.Proofs.Text.White

/-! # How listings are written

    A listing leaves its writer some choice: bytes are grouped in any way, an
    address may be left out where the entry before it ends, lines may be
    indented, and lines without an entry may stand anywhere.

    * **`IsGroupsOf`** — bytes as groups of hexadecimal digits.
    * **`IsAddressOf`** — the address in front of them, or nothing.
    * **`IsLineOf`** — the line of an entry.
    * **`IsListingOf`** — entries on lines of their own.

    What the reader has to know of a line is that digits are no white space
    and that none of its parts holds a `#` or a line feed before its time. -/

namespace IsaCodec

namespace Text

/-! ## Hexadecimal digits -/

variable {c : Char} {s : List Char} {n : Nat}

theorem toNat_of_isHexDigit (h : isHexDigit c) : 48 ≤ c.toNat ∧ c.toNat ≤ 122 := by
  have hvalue : (digitValue? c).isSome := by
    rw [isHexDigit, digit?, Option.isSome_iff_exists] at h
    obtain ⟨d, hd⟩ := h
    rw [(Option.filter_eq_some_iff.1 hd).1]
    rfl
  unfold digitValue? at hvalue
  split at hvalue
  next hc => exact ⟨hc.1, Nat.le_trans (m := '9'.toNat) hc.2 (by decide)⟩
  next =>
    split at hvalue
    next hc => exact ⟨Nat.le_trans (m := 'a'.toNat) (by decide) hc.1, hc.2⟩
    next =>
      split at hvalue
      next hc =>
        exact ⟨Nat.le_trans (m := 'A'.toNat) (by decide) hc.1,
          Nat.le_trans (m := 'Z'.toNat) hc.2 (by decide)⟩
      next => cases hvalue

theorem isWhite_of_isHexDigit (h : isHexDigit c) : isWhite c = false := by
  obtain ⟨hlow, hhigh⟩ := toNat_of_isHexDigit h
  exact isWhite_of_visible (Nat.le_trans (by decide) hlow) (Nat.le_trans hhigh (by decide))

theorem utf8Size_of_isHexDigit (h : isHexDigit c) : c.utf8Size = 1 := by
  obtain ⟨-, hhigh⟩ := toNat_of_isHexDigit h
  rw [Char.utf8Size_eq_one_iff, UInt32.le_iff_toNat_le]
  exact Nat.le_trans hhigh (by decide)

theorem IsNumeralIn.isHexDigit_of_mem (h : IsNumeralIn 16 s n) : ∀ c ∈ s, isHexDigit c := by
  obtain ⟨-, digits, hdigits, -⟩ := h
  intro c hc
  induction hdigits with
  | nil => cases hc
  | cons hd _ ih =>
    rcases List.mem_cons.1 hc with rfl | hc
    · rw [isHexDigit, hd]
      rfl
    · exact ih hc

end Text

namespace Listing

open Text

/-! ## Parts of a line -/

/-- Two hexadecimal digits for each byte. -/
inductive IsDigitsOf : List Byte → List Char → Prop where
  | nil : IsDigitsOf [] []
  | cons {byte : Byte} {bytes : List Byte} {high low : Char} {digits : List Char}
      (hbyte : IsNumeralIn 16 [high, low] byte.toNat) (h : IsDigitsOf bytes digits) :
      IsDigitsOf (byte :: bytes) (high :: low :: digits)

/-- Groups of one or more bytes, with a single space between two of them. -/
inductive IsGroupsOf : List Byte → List Char → Prop where
  | last {group : List Byte} {digits : List Char} (hne : group ≠ []) (h : IsDigitsOf group digits) :
      IsGroupsOf group digits
  | cons {group bytes : List Byte} {digits rest : List Char} (hne : group ≠ [])
      (h : IsDigitsOf group digits) (hrest : IsGroupsOf bytes rest) :
      IsGroupsOf (group ++ bytes) (digits ++ ' ' :: rest)

/-- The address of an entry after an entry that ends at `reached`: up to 16 hexadecimal digits, a
    colon and a space.  It can be left out of an entry that starts there, unless the expected text
    starts with a colon. -/
inductive IsAddressOf (reached : Nat) (entry : Entry) : List Char → Prop where
  | given {digits : List Char} (h : IsNumeralIn 16 digits entry.address)
      (hlength : digits.length ≤ 16) : IsAddressOf reached entry (digits ++ [':', ' '])
  | leftOut (haddress : entry.address = reached)
      (hcolon : (trim entry.expected.toList).head? ≠ some ':') : IsAddressOf reached entry []

/-- The comment at the end of a line. -/
def writtenComment (entry : Entry) : List Char :=
  if entry.comment = "" then [] else ' ' :: ' ' :: '#' :: ' ' :: entry.comment.toList

/-- The line of an entry, which may be indented. -/
def IsLineOf (reached : Nat) (entry : Entry) (line : List Char) : Prop :=
  ∃ indent address digits, AreWhite indent ∧ '\n' ∉ indent ∧
    IsAddressOf reached entry address ∧ IsGroupsOf entry.bytes digits ∧
    line = indent ++ address ++ digits ++ [' ', ' '] ++ entry.expected.toList ++
      writtenComment entry

/-- A line without an entry: white space, or a comment only. -/
def IsSkipped (line : List Char) : Prop :=
  '\n' ∉ line ∧ (AreWhite line ∨
    ∃ blanks comment, AreWhite blanks ∧ line = blanks ++ '#' :: comment)

/-! ## Listings -/

/-- The lines of entries that come after so many lines and after an entry that ends at `reached`. -/
inductive IsLinesOf : (line reached : Nat) → List Entry → List (List Char) → Prop where
  | nil {line reached : Nat} : IsLinesOf line reached [] []
  | skip {line reached : Nat} {entries : List Entry} {text : List Char} {lines : List (List Char)}
      (htext : IsSkipped text) (h : IsLinesOf (line + 1) reached entries lines) :
      IsLinesOf line reached entries (text :: lines)
  | entry {line reached : Nat} {entry : Entry} {entries : List Entry} {text : List Char}
      {lines : List (List Char)} (hline : entry.line = line + 1)
      (htext : IsLineOf reached entry text)
      (h : IsLinesOf (line + 1) (entry.address + entry.bytes.length) entries lines) :
      IsLinesOf line reached (entry :: entries) (text :: lines)

/-- Is a text a listing of these entries?  Lines are counted from one, and an entry without an
    address before the first one with an address is at zero. -/
def IsListingOf (entries : List Entry) (text : String) : Prop :=
  ∃ lines, IsLinesOf 0 0 entries lines ∧ text.toList = ['\n'].intercalate lines

/-- An entry that fits on a line and into the addresses there are. -/
structure Entry.IsPlain (entry : Entry) : Prop where
  hash_not_mem : '#' ∉ entry.expected.toList
  newline_not_mem : '\n' ∉ entry.expected.toList
  newline_not_mem_comment : '\n' ∉ entry.comment.toList
  fits : entry.address + entry.bytes.length < 2 ^ 64

/-- An entry without white space around its texts. -/
def Entry.trimmed (entry : Entry) : Entry :=
  { entry with
    comment := String.ofList (trim entry.comment.toList)
    expected := String.ofList (trim entry.expected.toList) }

/-! ## A sample -/

/-- Entries of a listing for Thumb.  The second one has more blanks between its words than there are
    in a normal form.  The last one expects what is not decoded, and its text could be taken for two
    more bytes or for an address. -/
def sampleEntries : List Entry := [
  { line := 2, comment := "", address := 0x1000, bytes := [0x21, 0x05],
    expected := "mov_1 Rd=0x1 imm8=0x5" },
  { line := 3, comment := "", address := 0x1002, bytes := [0xe9, 0x2d, 0x40, 0x10],
    expected := "push_1   M=0x1  register_list=0x10" },
  { line := 5, comment := "no instruction", address := 0x1006, bytes := [0xff],
    expected := "unknown" },
  { line := 6, comment := "", address := 0x1007, bytes := [0x22, 0x05],
    expected := "beef: mov_1" }]

/-- A listing of these entries. -/
def sampleText : String :=
  "\n".intercalate [
    "# thumb",
    "1000: 21 05  mov_1 Rd=0x1 imm8=0x5",
    "  e92d 4010  push_1   M=0x1  register_list=0x10",
    "",
    "FF  unknown  # no instruction",
    "2205  beef: mov_1",
    ""]

theorem isDigitsOf_cons {byte : Byte} {bytes : List Byte} {high low : Char} {digits : List Char}
    (hbyte : numeral? 16 [high, low] = some byte.toNat) (h : IsDigitsOf bytes digits) :
    IsDigitsOf (byte :: bytes) (high :: low :: digits) :=
  .cons (numeral?_eq_some.1 hbyte) h

theorem isListingOf_sample : IsListingOf sampleEntries sampleText := by
  have hmove : IsGroupsOf [0x21, 0x05] "21 05".toList :=
    @IsGroupsOf.cons [0x21] [0x05] ['2', '1'] ['0', '5'] (by decide) (isDigitsOf_cons rfl .nil)
      (.last (by decide) (isDigitsOf_cons rfl .nil))
  have hpush : IsGroupsOf [0xe9, 0x2d, 0x40, 0x10] "e92d 4010".toList :=
    @IsGroupsOf.cons [0xe9, 0x2d] [0x40, 0x10] ['e', '9', '2', 'd'] ['4', '0', '1', '0'] (by decide)
      (isDigitsOf_cons rfl (isDigitsOf_cons rfl .nil))
      (.last (by decide) (isDigitsOf_cons rfl (isDigitsOf_cons rfl .nil)))
  have hnothing : IsGroupsOf [0xff] "FF".toList := .last (by decide) (isDigitsOf_cons rfl .nil)
  have hother : IsGroupsOf [0x22, 0x05] "2205".toList :=
    .last (by decide) (isDigitsOf_cons rfl (isDigitsOf_cons rfl .nil))
  have haddress : IsNumeralIn 16 "1000".toList 0x1000 := numeral?_eq_some.1 (by decide)
  refine ⟨_, ?_, String.toList_intercalate⟩
  -- Line by line, with the address that is reached.
  refine .skip ⟨by decide, .inr ⟨[], _, by decide, rfl⟩⟩ ?_
  refine .entry rfl ⟨[], _, _, by decide, by decide, .given haddress (by decide), hmove,
    by decide⟩ ?_
  refine .entry rfl ⟨[' ', ' '], [], _, by decide, by decide, .leftOut rfl (by decide), hpush,
    by decide⟩ ?_
  refine .skip ⟨by decide, .inl (by decide)⟩ ?_
  refine .entry rfl ⟨[], [], _, by decide, by decide, .leftOut rfl (by decide), hnothing,
    by decide⟩ ?_
  refine .entry rfl ⟨[], [], _, by decide, by decide, .leftOut rfl (by decide), hother,
    by decide⟩ ?_
  exact .skip ⟨by decide, .inl (by decide)⟩ .nil

theorem isPlain_sample : ∀ entry ∈ sampleEntries, entry.IsPlain := by
  have hplain : ∀ entry ∈ sampleEntries, '#' ∉ entry.expected.toList ∧
      '\n' ∉ entry.expected.toList ∧ '\n' ∉ entry.comment.toList ∧
      entry.address + entry.bytes.length < 2 ^ 64 := by
    decide
  intro entry hentry
  obtain ⟨hhash, hnewline, hcomment, hfits⟩ := hplain entry hentry
  exact ⟨hhash, hnewline, hcomment, hfits⟩

/-! ## Characters of the parts -/

theorem IsDigitsOf.isHexDigit_of_mem {bytes : List Byte} {digits : List Char}
    (h : IsDigitsOf bytes digits) : ∀ c ∈ digits, isHexDigit c := by
  induction h with
  | nil => exact List.forall_mem_nil _
  | cons hbyte _ ih =>
    have hpair := hbyte.isHexDigit_of_mem
    rw [List.forall_mem_cons, List.forall_mem_singleton] at hpair
    exact List.forall_mem_cons.2 ⟨hpair.1, List.forall_mem_cons.2 ⟨hpair.2, ih⟩⟩

theorem IsDigitsOf.length_eq {bytes : List Byte} {digits : List Char}
    (h : IsDigitsOf bytes digits) : digits.length = 2 * bytes.length := by
  induction h with
  | nil => rfl
  | cons _ _ ih =>
    rw [List.length_cons, List.length_cons, List.length_cons, ih]
    omega

theorem IsDigitsOf.ne_nil {bytes : List Byte} {digits : List Char}
    (h : IsDigitsOf bytes digits) (hne : bytes ≠ []) : digits ≠ [] := by
  cases h with
  | nil => exact absurd rfl hne
  | cons => exact List.cons_ne_nil _ _

theorem IsGroupsOf.bytes_ne_nil {bytes : List Byte} {digits : List Char}
    (h : IsGroupsOf bytes digits) : bytes ≠ [] := by
  cases h with
  | last hne => exact hne
  | cons hne => exact fun hnil => hne (List.append_eq_nil_iff.1 hnil).1

theorem IsGroupsOf.of_mem {bytes : List Byte} {digits : List Char} (h : IsGroupsOf bytes digits) :
    ∀ c ∈ digits, isHexDigit c ∨ c = ' ' := by
  induction h with
  | last _ h => exact fun c hc => .inl (h.isHexDigit_of_mem c hc)
  | cons _ h _ ih =>
    rw [List.forall_mem_append, List.forall_mem_cons]
    exact ⟨fun c hc => .inl (h.isHexDigit_of_mem c hc), .inr rfl, ih⟩

theorem IsGroupsOf.not_mem {bytes : List Byte} {digits : List Char} {c : Char}
    (h : IsGroupsOf bytes digits) (hc : ¬(isHexDigit c ∨ c = ' ')) : c ∉ digits :=
  fun hmem => hc (h.of_mem c hmem)

/-- Groups start with a digit, so no white space is skipped in front of them. -/
theorem IsGroupsOf.exists_cons {bytes : List Byte} {digits : List Char}
    (h : IsGroupsOf bytes digits) : ∃ c rest, digits = c :: rest ∧ isHexDigit c := by
  obtain ⟨group, front, rest, hne, hfront, rfl⟩ : ∃ group front rest, group ≠ [] ∧
      IsDigitsOf group front ∧ digits = front ++ rest := by
    cases h with
    | last hne h => exact ⟨_, _, [], hne, h, (List.append_nil _).symm⟩
    | cons hne h _ => exact ⟨_, _, _, hne, h, rfl⟩
  obtain ⟨c, tail, rfl⟩ := List.exists_cons_of_ne_nil (hfront.ne_nil hne)
  exact ⟨c, tail ++ rest, rfl, hfront.isHexDigit_of_mem c List.mem_cons_self⟩

/-- Groups end with a digit. -/
theorem IsGroupsOf.trimEnd_eq {bytes : List Byte} {digits : List Char}
    (h : IsGroupsOf bytes digits) : trimEnd digits = digits := by
  induction h with
  | last _ h => exact trimEnd_eq_self fun c hc => isWhite_of_isHexDigit (h.isHexDigit_of_mem c hc)
  | cons _ _ hrest ih =>
    obtain ⟨c, tail, rfl, -⟩ := hrest.exists_cons
    rw [List.append_cons, trimEnd_append_of_ne_nil (by rw [ih]; exact List.cons_ne_nil c tail), ih]

theorem IsAddressOf.of_mem {reached : Nat} {entry : Entry} {address : List Char}
    (h : IsAddressOf reached entry address) : ∀ c ∈ address, isHexDigit c ∨ c = ':' ∨ c = ' ' := by
  cases h with
  | given h _ =>
    rw [List.forall_mem_append]
    exact ⟨fun c hc => .inl (h.isHexDigit_of_mem c hc), by simp⟩
  | leftOut => exact List.forall_mem_nil _

theorem IsAddressOf.not_mem {reached : Nat} {entry : Entry} {address : List Char} {c : Char}
    (h : IsAddressOf reached entry address) (hc : ¬(isHexDigit c ∨ c = ':' ∨ c = ' ')) :
    c ∉ address :=
  fun hmem => hc (h.of_mem c hmem)

/-- With or without an address, a line starts with a digit. -/
theorem IsAddressOf.exists_cons {reached : Nat} {entry : Entry} {address digits : List Char}
    (h : IsAddressOf reached entry address) (hdigits : IsGroupsOf entry.bytes digits) :
    ∃ c rest, address ++ digits = c :: rest ∧ isHexDigit c := by
  cases h with
  | leftOut => exact hdigits.exists_cons
  | given h _ =>
    obtain ⟨c, rest, rfl⟩ := List.exists_cons_of_ne_nil h.1
    exact ⟨c, _, rfl, h.isHexDigit_of_mem c List.mem_cons_self⟩

end Listing

end IsaCodec
