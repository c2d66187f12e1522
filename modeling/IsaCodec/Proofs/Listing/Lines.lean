import IsaCodec.Listing.Parser
import IsaCodec.Proofs.Text.White

/-! # Listings line by line

    Reading takes line after line off a cursor.  What a line gives depends on
    its two parts, the number of lines before it and the address that was
    reached, and on nothing else.  So a listing can be read by recursion on
    the parts of its lines (`readParts`), where a carriage return at the end
    of a line and a line feed at the end of the listing make no difference
    (`read_eq`). -/

namespace IsaCodec.Listing

open Text

/-- All entries and errors of lines that are divided into body and comment, after `line` lines and
    with the address that was reached. -/
def readParts (line address : Nat) : List (List Char × List Char) → List (Except Error Entry)
  | [] => []
  | (body, comment) :: rest =>
    if body.isEmpty then readParts (line + 1) address rest
    else
      let read := Cursor.readEntry ⟨[], line + 1, address⟩ body comment
      read.1 :: readParts (line + 1) read.2.address rest

/-! ## The cursor -/

theorem readAll_of_none {cursor : Cursor} (h : cursor.next? = none) : cursor.readAll = [] := by
  rw [Cursor.readAll]
  split
  · rfl
  · next heq =>
    rw [h] at heq
    cases heq

theorem readAll_of_some {cursor next : Cursor} {result : Except Error Entry}
    (h : cursor.next? = some (result, next)) : cursor.readAll = result :: next.readAll := by
  rw [Cursor.readAll]
  split
  · next heq =>
    rw [h] at heq
    cases heq
  · next heq =>
    rw [h] at heq
    cases heq
    rfl

/-- The lines that are left have no part in reading an entry, and stay as they are. -/
theorem readEntry_eq (lines : List (List Char)) (line address : Nat) (body comment : List Char) :
    Cursor.readEntry ⟨lines, line, address⟩ body comment =
      ((Cursor.readEntry ⟨[], line, address⟩ body comment).1,
        ⟨lines, line, (Cursor.readEntry ⟨[], line, address⟩ body comment).2.address⟩) := by
  unfold Cursor.readEntry
  cases readAddress body with
  | error fault => rfl
  | ok read =>
    dsimp only
    cases readBytes read.2 with
    | error fault => rfl
    | ok found =>
      obtain ⟨bytes, expected⟩ := found
      cases bytes <;> rfl

theorem readAll_eq (lines : List (List Char)) (line address : Nat) :
    Cursor.readAll ⟨lines, line, address⟩ = readParts line address (lines.map splitComment) := by
  induction lines generalizing line address with
  | nil => exact readAll_of_none rfl
  | cons text rest ih =>
    cases hparts : splitComment text with
    | mk body comment =>
      rw [List.map_cons, hparts, readParts]
      by_cases hbody : body.isEmpty
      · -- The line is skipped: the cursor is as good as one that starts after it.
        have hnext : Cursor.next? ⟨text :: rest, line, address⟩ =
            Cursor.next? ⟨rest, line + 1, address⟩ := by
          simp only [Cursor.next?, nextEntry, hparts, if_pos hbody]
        rw [if_pos hbody, ← ih]
        cases hresult : Cursor.next? ⟨rest, line + 1, address⟩ with
        | none => rw [readAll_of_none (hnext.trans hresult), readAll_of_none hresult]
        | some result =>
          rw [readAll_of_some (hnext.trans hresult), readAll_of_some hresult]
      · have hnext : Cursor.next? ⟨text :: rest, line, address⟩ =
            some (Cursor.readEntry ⟨rest, line + 1, address⟩ body comment) := by
          simp only [Cursor.next?, nextEntry, hparts, if_neg hbody]
        rw [readEntry_eq] at hnext
        rw [if_neg hbody, readAll_of_some hnext, ih]

/-! ## Ends of lines -/

theorem splitComment_of_not_mem {line : List Char} (h : '#' ∉ line) :
    splitComment line = (trim line, []) := by
  rw [splitComment, cutAt?_of_not_mem h]

theorem splitComment_append {body : List Char} (comment : List Char) (h : '#' ∉ body) :
    splitComment (body ++ '#' :: comment) = (trim body, trim comment) := by
  rw [splitComment, cutAt?_append comment h]

theorem splitComment_append_areWhite {blanks : List Char} (line : List Char)
    (h : AreWhite blanks) : splitComment (line ++ blanks) = splitComment line := by
  by_cases hhash : '#' ∈ line
  · -- The white space belongs to the comment.
    obtain ⟨body, comment, rfl, hbody⟩ := List.eq_append_cons_of_mem hhash
    rw [List.append_assoc, List.cons_append, splitComment_append _ hbody,
      splitComment_append _ hbody, trim_append_right h]
  · have hhash' : '#' ∉ line ++ blanks := by
      rw [List.mem_append, not_or]
      exact ⟨hhash, h.not_mem rfl⟩
    rw [splitComment_of_not_mem hhash, splitComment_of_not_mem hhash', trim_append_right h]

theorem splitComment_dropReturn (line : List Char) :
    splitComment (dropReturn line) = splitComment line := by
  unfold dropReturn
  split
  · next h =>
    obtain ⟨front, rfl⟩ := List.getLast?_eq_some_iff.1 h
    rw [List.dropLast_concat, splitComment_append_areWhite front (by decide : AreWhite ['\r'])]
  · rfl

theorem readParts_append_nil (line address : Nat) (parts : List (List Char × List Char)) :
    readParts line address (parts ++ [([], [])]) = readParts line address parts := by
  induction parts generalizing line address with
  | nil => rfl
  | cons part rest ih =>
    obtain ⟨body, comment⟩ := part
    rw [List.cons_append, readParts, readParts]
    split
    · exact ih _ _
    · exact congrArg (List.cons _) (ih _ _)

/-- A listing is read **line by line**, and its lines are what stands between line feeds. -/
theorem read_eq (text : String) :
    read text = readParts 0 0 ((text.toList.splitOn '\n').map splitComment) := by
  rw [read, Cursor.ofText, readAll_eq]
  have hne : text.toList.splitOn '\n' ≠ [] := List.splitOn_ne_nil '\n' _
  obtain ⟨front, last, hpieces⟩ := (List.eq_nil_or_concat _).resolve_left hne
  have hfront : (front.map dropReturn).map splitComment = front.map splitComment := by
    rw [List.map_map]
    exact List.map_congr_left fun line _ => splitComment_dropReturn line
  rw [lines, hpieces, List.concat_eq_append, List.dropLast_concat, List.getLast?_concat,
    List.map_append, hfront, List.map_append]
  -- After a line feed at the end there is one more piece, but no line.
  cases last with
  | nil =>
    show readParts 0 0 (front.map splitComment ++ []) = _
    rw [List.append_nil]
    exact (readParts_append_nil 0 0 _).symm
  | cons c last => rfl

end IsaCodec.Listing
