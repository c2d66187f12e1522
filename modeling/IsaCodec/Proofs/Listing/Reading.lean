import IsaCodec.Proofs.Listing.Grammar
import IsaCodec.Proofs.Listing.Lines
import IsaCodec.Proofs.Outcome
import Mathlib.Data.String.Basic

/-! # Listings are read as they were written

    A line does not say where its address, its bytes and its expected text
    end; the reader finds out.  Three things could go wrong, and do not:

    * a colon of the expected text is not taken for the end of an address,
      because white space comes before it (`readAddress_leftOut`);
    * digits at the start of the expected text are not taken for bytes,
      because two spaces come before them (`readBytes_groups`);
    * the white space between groups is not taken for the end of the bytes.

    So each line gives its entry (`readEntry_body`), and the lines of a
    listing give the entries in order (`readParts_of_isLinesOf`). -/

namespace IsaCodec.Listing

open Text

/-! ## Bytes -/

theorem IsDigitsOf.bytesOfDigits_eq {bytes : List Byte} {digits : List Char}
    (h : IsDigitsOf bytes digits) : bytesOfDigits digits = bytes := by
  induction h with
  | nil => rfl
  | cons hbyte _ ih =>
    rw [bytesOfDigits, numeral?_eq_some.2 hbyte, ih, Option.getD_some, BitVec.ofNat_toNat,
      BitVec.setWidth_eq]

/-- What comes after the bytes and ends them: nothing, or two spaces and more. -/
def EndsBytes (tail : List Char) : Prop :=
  tail = [] ∨ ∃ rest, tail = ' ' :: ' ' :: rest

theorem EndsBytes.takeWhile_eq {tail : List Char} (h : EndsBytes tail) :
    tail.takeWhile isHexDigit = [] := by
  rcases h with rfl | ⟨rest, rfl⟩ <;> rfl

theorem readBytes_of_endsBytes {tail : List Char} (h : EndsBytes tail) :
    readBytes tail = .ok ([], trimStart tail) := by
  rcases h with rfl | ⟨rest, rfl⟩
  · rw [readBytes]
    rfl
  · have hblanks : 1 < ((' ' :: ' ' :: rest).takeWhile isWhite).length := by
      rw [List.takeWhile_cons_of_pos isWhite_space, List.takeWhile_cons_of_pos isWhite_space]
      exact Nat.le_add_left _ _
    rw [readBytes, if_neg (by exact Bool.false_ne_true), if_pos hblanks]

/-- **One group** is read after at most one space. -/
theorem readBytes_group {gap digits rest after : List Char} {group bytes : List Byte}
    (hgap : gap = [] ∨ gap = [' ']) (hne : group ≠ []) (hdigits : IsDigitsOf group digits)
    (hrest : rest.takeWhile isHexDigit = []) (h : readBytes rest = .ok (bytes, after)) :
    readBytes (gap ++ (digits ++ rest)) = .ok (group ++ bytes, after) := by
  have hlength := hdigits.length_eq
  have hpos := List.length_pos_iff.2 hne
  obtain ⟨c, tail, hcons⟩ := List.exists_cons_of_ne_nil (hdigits.ne_nil hne)
  have hc : isHexDigit c := hdigits.isHexDigit_of_mem c (hcons ▸ List.mem_cons_self)
  have hwhite : AreWhite gap ∧ gap.length ≤ 1 := by
    rcases hgap with rfl | rfl <;> decide
  have hempty : ¬(gap ++ (digits ++ rest)).isEmpty := by
    rw [List.isEmpty_iff, List.append_eq_nil_iff, List.append_eq_nil_iff]
    exact fun hnil => hdigits.ne_nil hne hnil.2.1
  -- The space is skipped, the digits are taken, and the rest has no digit in front.
  have hstart : trimStart (gap ++ (digits ++ rest)) = digits ++ rest := by
    rw [trimStart_append hwhite.1, hcons, List.cons_append,
      trimStart_cons_of_not_isWhite (isWhite_of_isHexDigit hc)]
  have hblanks : (gap ++ (digits ++ rest)).takeWhile isWhite = gap := by
    rw [List.takeWhile_append_of_pos hwhite.1, hcons, List.cons_append,
      List.takeWhile_cons_of_neg (ne_true_of_eq_false (isWhite_of_isHexDigit hc)),
      List.append_nil]
  have htake : (digits ++ rest).takeWhile isHexDigit = digits := by
    rw [List.takeWhile_append_of_pos hdigits.isHexDigit_of_mem, hrest, List.append_nil]
  have hdrop : (digits ++ rest).dropWhile isHexDigit = rest := by
    have hsplit := List.takeWhile_append_dropWhile (p := isHexDigit) (l := rest)
    rw [hrest, List.nil_append] at hsplit
    rw [List.dropWhile_append_of_pos hdigits.isHexDigit_of_mem, hsplit]
  rw [readBytes, if_neg hempty]
  simp only [hstart, hblanks, htake, hdrop, hdigits.bytesOfDigits_eq, h]
  rw [if_neg (by omega), dif_neg (by omega), if_neg (by omega)]
  rfl

/-- The bytes of all groups are read, and the text after the white space that ends them is left. -/
theorem readBytes_groups {gap digits tail : List Char} {bytes : List Byte}
    (hgap : gap = [] ∨ gap = [' ']) (hdigits : IsGroupsOf bytes digits) (htail : EndsBytes tail) :
    readBytes (gap ++ (digits ++ tail)) = .ok (bytes, trimStart tail) := by
  induction hdigits generalizing gap with
  | @last group digits hne h =>
    have hread := readBytes_group hgap hne h htail.takeWhile_eq (readBytes_of_endsBytes htail)
    rwa [List.append_nil] at hread
  | cons hne h _ ih =>
    -- The groups that follow come after one space.
    rw [List.append_assoc, List.cons_append]
    exact readBytes_group hgap hne h rfl (ih (.inr rfl))

/-! ## Addresses -/

theorem utf8Len_of_isHexDigit {s : List Char} (h : ∀ c ∈ s, isHexDigit c) :
    String.utf8Len s = s.length := by
  induction s with
  | nil => rfl
  | cons c s ih =>
    obtain ⟨hc, hs⟩ := List.forall_mem_cons.1 h
    rw [String.utf8Len_cons, ih hs, utf8Size_of_isHexDigit hc, List.length_cons]

theorem trim_of_isHexDigit {s : List Char} (h : ∀ c ∈ s, isHexDigit c) : trim s = s := by
  have hend : trimEnd s = s := trimEnd_eq_self fun c hc => isWhite_of_isHexDigit (h c hc)
  cases s with
  | nil => rfl
  | cons c s =>
    rw [trim, trimStart_cons_of_not_isWhite (isWhite_of_isHexDigit (h c List.mem_cons_self)), hend]

theorem address?_of_isNumeralIn {digits : List Char} {n : Nat} (h : IsNumeralIn 16 digits n)
    (hn : n < 2 ^ 64) : address? digits = some n := by
  have hread := boundedNumeral?_eq_some.2 ⟨h, hn⟩
  unfold address?
  split
  · -- A plus sign is no digit.
    exact absurd (h.isHexDigit_of_mem '+' List.mem_cons_self) (by decide)
  · exact hread

/-- An address in front of a line **is read**. -/
theorem readAddress_given {digits : List Char} {n : Nat} (rest : List Char)
    (h : IsNumeralIn 16 digits n) (hlength : digits.length ≤ 16) (hn : n < 2 ^ 64) :
    readAddress (digits ++ ':' :: rest) = .ok (some n, trimStart rest) := by
  have hhex := h.isHexDigit_of_mem
  have hcolon : ':' ∉ digits := fun hmem => absurd (hhex ':' hmem) (by decide)
  have hlooks : looksLikeAddress digits := by
    have hempty : digits.isEmpty = false := List.isEmpty_eq_false_iff.2 h.1
    have hwhite : digits.any isWhite = false :=
      List.any_eq_false.2 fun c hc => ne_true_of_eq_false (isWhite_of_isHexDigit (hhex c hc))
    have hsize : (String.ofList digits).utf8ByteSize < 17 := by
      rw [String.utf8ByteSize_ofList, utf8Len_of_isHexDigit hhex]
      omega
    rw [looksLikeAddress, hempty, hwhite, decide_eq_true hsize]
    rfl
  rw [readAddress, cutAt?_append rest hcolon]
  simp only [trim_of_isHexDigit hhex, if_pos hlooks, address?_of_isNumeralIn h hn]

/-- The end of the body of a line: two spaces and the expected text, trimmed. -/
def bodyEnd (expected : List Char) : List Char :=
  trimEnd ([' ', ' '] ++ expected)

/-- The two spaces are there unless the expected text is white space. -/
theorem bodyEnd_cases (s : List Char) :
    bodyEnd s = [] ∨ (bodyEnd s = ' ' :: ' ' :: trimEnd s ∧ trimEnd s ≠ []) := by
  by_cases h : trimEnd s = []
  · rw [bodyEnd, trimEnd_append_of_areWhite (trimEnd_eq_nil.1 h)]
    exact .inl (trimEnd_eq_nil.2 areWhite_spaces)
  · exact .inr ⟨trimEnd_append_of_ne_nil h, h⟩

theorem endsBytes_bodyEnd (s : List Char) : EndsBytes (bodyEnd s) := by
  rcases bodyEnd_cases s with h | ⟨h, -⟩
  · exact .inl h
  · exact .inr ⟨_, h⟩

/-- If a text does not start with a colon, what is in front of a colon is not white space only. -/
theorem trimEnd_ne_nil_of_colon {s front rest : List Char} (hcolon : (trim s).head? ≠ some ':')
    (h : trimEnd s = front ++ ':' :: rest) : trimEnd front ≠ [] := by
  intro hfront
  refine hcolon ?_
  have htrim : trim s = trimEnd (':' :: rest) := by
    rw [← trim_trimEnd, h, trim_append (trimEnd_eq_nil.1 hfront), trim,
      trimStart_cons_of_not_isWhite (by decide)]
  rw [htrim, trimEnd]
  split <;> rfl

/-- A colon after the bytes belongs to the expected text. -/
theorem exists_of_colon {digits s before rest : List Char} {bytes : List Byte}
    (hdigits : IsGroupsOf bytes digits) (hcolon : (trim s).head? ≠ some ':')
    (h : digits ++ bodyEnd s = before ++ ':' :: rest) :
    ∃ front, before = digits ++ ' ' :: ' ' :: front ∧ trimEnd front ≠ [] := by
  rcases List.append_eq_append_iff.1 h with ⟨front, rfl, htail⟩ | ⟨more, rfl, htail⟩
  · rcases bodyEnd_cases s with hnil | ⟨hcons, -⟩
    · rw [hnil] at htail
      exact absurd htail.symm (by simp)
    · rw [hcons] at htail
      -- The colon is not one of the two spaces.
      match front, htail with
      | _ :: _ :: front, htail =>
        obtain ⟨rfl, rfl, hend⟩ : _ ∧ _ ∧ _ := by simpa using htail
        exact ⟨front, rfl, trimEnd_ne_nil_of_colon hcolon hend⟩
      | [_], htail => exact absurd htail (by simp)
      | [], htail => exact absurd htail (by simp)
  · -- It is not among the digits either, nor right after them.
    cases more with
    | nil =>
      rcases endsBytes_bodyEnd s with hnil | ⟨_, hcons⟩
      · rw [hnil] at htail
        exact absurd htail (by simp)
      · rw [hcons] at htail
        exact absurd htail (by simp)
    | cons c more =>
      obtain ⟨rfl, -⟩ := List.cons_eq_cons.1 htail
      exact absurd (List.mem_append_right _ List.mem_cons_self) (hdigits.not_mem (by decide))

/-- Without an address **none is read**, whatever colons the expected text has. -/
theorem readAddress_leftOut {digits s : List Char} {bytes : List Byte}
    (hdigits : IsGroupsOf bytes digits) (hcolon : (trim s).head? ≠ some ':') :
    readAddress (digits ++ bodyEnd s) = .ok (none, digits ++ bodyEnd s) := by
  rw [readAddress]
  cases hcut : cutAt? ':' (digits ++ bodyEnd s) with
  | none => rfl
  | some parts =>
    obtain ⟨before, rest⟩ := parts
    obtain ⟨front, rfl, hfront⟩ := exists_of_colon hdigits hcolon (eq_append_of_cutAt? hcut).1
    -- The text before the colon is two words or more, so it is no address.
    have htrim : trim (digits ++ ' ' :: ' ' :: front) = digits ++ ' ' :: ' ' :: trimEnd front := by
      have hend := trimEnd_append_of_ne_nil (s := digits ++ [' ', ' ']) hfront
      rw [List.append_assoc, List.append_assoc] at hend
      obtain ⟨c, tail, rfl, hc⟩ := hdigits.exists_cons
      rw [trim, List.cons_append, trimStart_cons_of_not_isWhite (isWhite_of_isHexDigit hc)]
      exact hend
    have hlooks : looksLikeAddress (trim (digits ++ ' ' :: ' ' :: front)) = false := by
      have hany : (digits ++ ' ' :: ' ' :: trimEnd front).any isWhite :=
        List.any_eq_true.2 ⟨' ', List.mem_append_right _ List.mem_cons_self, isWhite_space⟩
      rw [looksLikeAddress, htrim, hany, Bool.not_true, Bool.and_false]
    simp only [hlooks, Bool.false_eq_true, if_false]

/-! ## Lines -/

variable {reached : Nat} {entry : Entry} {address digits line : List Char}

/-- The address of an entry is read off its line, or is the one that was reached. -/
theorem exists_readAddress_eq (hplain : entry.IsPlain)
    (haddress : IsAddressOf reached entry address) (hdigits : IsGroupsOf entry.bytes digits) :
    let tail := bodyEnd entry.expected.toList
    ∃ found, readAddress (address ++ (digits ++ tail)) = .ok (found, digits ++ tail) ∧
      found.getD reached = entry.address := by
  intro tail
  cases haddress with
  | leftOut heq hcolon => exact ⟨none, readAddress_leftOut hdigits hcolon, heq.symm⟩
  | given h hlength =>
    refine ⟨some entry.address, ?_, rfl⟩
    have hlt : entry.address < 2 ^ 64 := Nat.lt_of_le_of_lt (Nat.le_add_right _ _) hplain.fits
    obtain ⟨c, rest, rfl, hc⟩ := hdigits.exists_cons
    rw [List.append_assoc, List.cons_append, readAddress_given _ h hlength hlt,
      trimStart_append areWhite_space, List.cons_append,
      trimStart_cons_of_not_isWhite (isWhite_of_isHexDigit hc)]

/-- The body of a line gives **the entry** that it was written for. -/
theorem readEntry_body (hplain : entry.IsPlain) (haddress : IsAddressOf reached entry address)
    (hdigits : IsGroupsOf entry.bytes digits) :
    Cursor.readEntry ⟨[], entry.line, reached⟩
        (address ++ (digits ++ bodyEnd entry.expected.toList)) (trim entry.comment.toList) =
      (.ok entry.trimmed, ⟨[], entry.line, entry.address + entry.bytes.length⟩) := by
  obtain ⟨found, hfound, hgetD⟩ := exists_readAddress_eq hplain haddress hdigits
  have hbytes := readBytes_groups (.inl rfl) hdigits (endsBytes_bodyEnd entry.expected.toList)
  rw [List.nil_append] at hbytes
  have hexpected : trim (trimStart (bodyEnd entry.expected.toList)) =
      trim entry.expected.toList := by
    rw [trim_trimStart, bodyEnd, trim_trimEnd, trim_append areWhite_spaces]
  obtain ⟨byte, bytes, hcons⟩ := List.exists_cons_of_ne_nil hdigits.bytes_ne_nil
  rw [Cursor.readEntry, hfound]
  simp only [hbytes, hcons, hgetD, hexpected, Entry.trimmed]

theorem splitComment_writtenComment {body : List Char} (entry : Entry) (h : '#' ∉ body) :
    splitComment (body ++ writtenComment entry) = (trim body, trim entry.comment.toList) := by
  unfold writtenComment
  split
  · next hempty =>
    rw [List.append_nil, splitComment_of_not_mem h, hempty]
    rfl
  · have hbody : '#' ∉ body ++ [' ', ' '] := by
      rw [List.mem_append, not_or]
      exact ⟨h, areWhite_spaces.not_mem rfl⟩
    have hsplit := splitComment_append ([' '] ++ entry.comment.toList) hbody
    rw [trim_append_right areWhite_spaces, trim_append areWhite_space, List.append_assoc] at hsplit
    exact hsplit

/-- A character that the reader looks out for is not in the body of a line, if it is not in the
    expected text. -/
theorem not_mem_body {c : Char} {indent : List Char} (hc : ¬(isHexDigit c ∨ c = ':' ∨ c = ' '))
    (haddress : IsAddressOf reached entry address) (hdigits : IsGroupsOf entry.bytes digits)
    (hindent : c ∉ indent) (hexpected : c ∉ entry.expected.toList) :
    c ∉ indent ++ address ++ digits ++ [' ', ' '] ++ entry.expected.toList := by
  rw [not_or, not_or] at hc
  obtain ⟨hhex, hcolon, hspace⟩ := hc
  simp only [List.mem_append, not_or]
  refine ⟨⟨⟨⟨hindent, haddress.not_mem ?_⟩, hdigits.not_mem ?_⟩, ?_⟩, hexpected⟩
  · rintro (h | h | h) <;> contradiction
  · rintro (h | h) <;> contradiction
  · simp [hspace]

/-- White space around the body of a line is dropped; what is left starts with a digit. -/
theorem trim_body (haddress : IsAddressOf reached entry address)
    (hdigits : IsGroupsOf entry.bytes digits) {indent : List Char} (hindent : AreWhite indent) :
    trim (indent ++ address ++ digits ++ [' ', ' '] ++ entry.expected.toList) =
      address ++ (digits ++ bodyEnd entry.expected.toList) := by
  obtain ⟨c, rest, hcons, hc⟩ := haddress.exists_cons hdigits
  have hend : trimEnd (address ++ digits) = address ++ digits := by
    obtain ⟨d, tail, htail, -⟩ := hdigits.exists_cons
    rw [trimEnd_append_of_ne_nil (by rw [hdigits.trimEnd_eq, htail]; exact List.cons_ne_nil d tail),
      hdigits.trimEnd_eq]
  calc trim (indent ++ address ++ digits ++ [' ', ' '] ++ entry.expected.toList)
      = trim (indent ++ ((address ++ digits) ++ ([' ', ' '] ++ entry.expected.toList))) := by
        simp only [List.append_assoc]
    _ = trim ((address ++ digits) ++ ([' ', ' '] ++ entry.expected.toList)) := trim_append hindent
    _ = trimEnd ((address ++ digits) ++ ([' ', ' '] ++ entry.expected.toList)) := by
        rw [trim, hcons, List.cons_append, trimStart_cons_of_not_isWhite (isWhite_of_isHexDigit hc)]
    _ = address ++ (digits ++ bodyEnd entry.expected.toList) := by
        rw [trimEnd_append hend, List.append_assoc, bodyEnd]

/-- The two parts of the line of an entry. -/
theorem exists_splitComment_eq (hplain : entry.IsPlain) (h : IsLineOf reached entry line) :
    ∃ address digits, IsAddressOf reached entry address ∧ IsGroupsOf entry.bytes digits ∧
      splitComment line =
        (address ++ (digits ++ bodyEnd entry.expected.toList), trim entry.comment.toList) := by
  obtain ⟨indent, address, digits, hindent, -, haddress, hdigits, rfl⟩ := h
  refine ⟨address, digits, haddress, hdigits, ?_⟩
  have hhash := not_mem_body (c := '#') (by decide) haddress hdigits (hindent.not_mem rfl)
    hplain.hash_not_mem
  rw [splitComment_writtenComment entry hhash, trim_body haddress hdigits hindent]

theorem exists_splitComment_eq_of_isSkipped (h : IsSkipped line) :
    ∃ comment, splitComment line = ([], comment) := by
  rcases h.2 with hwhite | ⟨blanks, comment, hblanks, rfl⟩
  · refine ⟨[], ?_⟩
    rw [splitComment_of_not_mem (hwhite.not_mem rfl), trim_of_areWhite hwhite]
  · refine ⟨trim comment, ?_⟩
    rw [splitComment_append comment (hblanks.not_mem rfl), trim_of_areWhite hblanks]

/-! ## Listings -/

/-- The lines of a listing are read to **its entries in order**, by induction on the lines; the
    address that is reached goes along. -/
theorem readParts_of_isLinesOf {count : Nat} {entries : List Entry} {lines : List (List Char)}
    (h : IsLinesOf count reached entries lines) (hplain : ∀ entry ∈ entries, entry.IsPlain) :
    readParts count reached (lines.map splitComment) =
      entries.map fun entry => .ok entry.trimmed := by
  induction h with
  | nil => rfl
  | @skip count reached entries text lines htext _ ih =>
    obtain ⟨comment, hsplit⟩ := exists_splitComment_eq_of_isSkipped htext
    rw [List.map_cons, hsplit]
    exact ih hplain
  | @entry count reached entry entries text lines hline htext _ ih =>
    obtain ⟨hentry, hrest⟩ := List.forall_mem_cons.1 hplain
    obtain ⟨address, digits, haddress, hdigits, hsplit⟩ := exists_splitComment_eq hentry htext
    have hread := readEntry_body hentry haddress hdigits
    have hbody : ¬(address ++ (digits ++ bodyEnd entry.expected.toList)).isEmpty := by
      obtain ⟨c, tail, hcons, -⟩ := haddress.exists_cons hdigits
      rw [← List.append_assoc, hcons]
      exact Bool.false_ne_true
    rw [hline] at hread
    rw [List.map_cons, hsplit, readParts, if_neg hbody, hread]
    exact congrArg (List.cons _) (ih hrest)

theorem newline_not_mem_of_isLineOf (hplain : entry.IsPlain) (h : IsLineOf reached entry line) :
    '\n' ∉ line := by
  obtain ⟨indent, address, digits, -, hindent, haddress, hdigits, rfl⟩ := h
  have hcomment : '\n' ∉ writtenComment entry := by
    unfold writtenComment
    split
    · exact List.not_mem_nil
    · simp [hplain.newline_not_mem_comment]
  rw [List.mem_append, not_or]
  exact ⟨not_mem_body (by decide) haddress hdigits hindent hplain.newline_not_mem, hcomment⟩

theorem newline_not_mem_of_isLinesOf {count : Nat} {entries : List Entry}
    {lines : List (List Char)} (h : IsLinesOf count reached entries lines)
    (hplain : ∀ entry ∈ entries, entry.IsPlain) : ∀ line ∈ lines, '\n' ∉ line := by
  induction h with
  | nil => exact List.forall_mem_nil _
  | skip htext _ ih => exact List.forall_mem_cons.2 ⟨htext.1, ih hplain⟩
  | entry _ htext _ ih =>
    obtain ⟨hentry, hrest⟩ := List.forall_mem_cons.1 hplain
    exact List.forall_mem_cons.2 ⟨newline_not_mem_of_isLineOf hentry htext, ih hrest⟩

/-- A listing is read to the entries that it was written for, **without the white space around
    their texts**. -/
theorem read_of_isListingOf {entries : List Entry} {text : String}
    (h : IsListingOf entries text) (hplain : ∀ entry ∈ entries, entry.IsPlain) :
    read text = entries.map fun entry => .ok entry.trimmed := by
  obtain ⟨lines, hlines, htext⟩ := h
  rw [read_eq, htext, ← readParts_of_isLinesOf hlines hplain]
  cases lines with
  | nil => rfl
  | cons line lines =>
    rw [List.splitOn_intercalate '\n' (newline_not_mem_of_isLinesOf hlines hplain)
      (List.cons_ne_nil line lines)]

/-- **Listings round-trip.**  Entries whose texts have no white space around them can be written
    with or without addresses, grouped in any way, and with blank lines and comments between them:
    reading gives these entries, in order, and nothing else. -/
theorem read_written {entries : List Entry} {text : String} (h : IsListingOf entries text)
    (hplain : ∀ entry ∈ entries, entry.IsPlain)
    (hexpected : ∀ entry ∈ entries, trim entry.expected.toList = entry.expected.toList)
    (hcomment : ∀ entry ∈ entries, trim entry.comment.toList = entry.comment.toList) :
    read text = entries.map .ok ∧ readBytesOf text = .ok (entries.flatMap (·.bytes)) := by
  have hread : read text = entries.map .ok := by
    rw [read_of_isListingOf h hplain]
    refine List.map_congr_left fun entry hentry => ?_
    rw [Entry.trimmed, hexpected entry hentry, hcomment entry hentry, String.ofList_toList,
      String.ofList_toList]
  refine ⟨hread, ?_⟩
  rw [readBytesOf, hread, mapM_id_map_ok]
  rfl

theorem read_written_sample :
    IsListingOf sampleEntries sampleText ∧ (∀ entry ∈ sampleEntries, entry.IsPlain) ∧
      (∀ entry ∈ sampleEntries, trim entry.expected.toList = entry.expected.toList) ∧
      (∀ entry ∈ sampleEntries, trim entry.comment.toList = entry.comment.toList) ∧
      read sampleText = sampleEntries.map .ok ∧
      readBytesOf sampleText =
        .ok [0x21, 0x05, 0xe9, 0x2d, 0x40, 0x10, 0xff, 0x22, 0x05] := by
  have hexpected : ∀ entry ∈ sampleEntries, trim entry.expected.toList = entry.expected.toList := by
    decide
  have hcomment : ∀ entry ∈ sampleEntries, trim entry.comment.toList = entry.comment.toList := by
    decide
  exact ⟨isListingOf_sample, isPlain_sample, hexpected, hcomment,
    read_written isListingOf_sample isPlain_sample hexpected hcomment⟩

end IsaCodec.Listing
