import IsaCodec.Text.Lines

/-! # Line differences

    The lines of two texts are matched by a longest common subsequence.
    Lines that the texts have in common at the start and at the end are
    matched first.  The script of the lines between them is chosen from its
    end: a line of the right text only, if the common subsequence is as long
    without it; else a line of the left text only, on the same condition;
    else a line of both. -/

namespace IsaCodec.LineDiff

/-- A line of the left text, of the right text, or of both. -/
inductive Item where
  | left (line : List Char)
  | both (line : List Char)
  | right (line : List Char)
  deriving DecidableEq

/-! ## Longest common subsequences -/

/-- Two beginnings of texts: the length of their longest common subsequence
    and a script of their lines, last line first. -/
structure Cell where
  length : Nat
  script : List Item

/-- The cell for one more line on both sides, from the cells without the
    last line of both, without that of the left text and without that of the
    right text. -/
def Cell.extend (l r : List Char) (neither withoutLeft withoutRight : Cell) : Cell :=
  let length :=
    if l = r then neither.length + 1 else max withoutLeft.length withoutRight.length
  if length = withoutRight.length then ⟨length, .right r :: withoutRight.script⟩
  else if length = withoutLeft.length then ⟨length, .left l :: withoutLeft.script⟩
  else ⟨length, .both l :: neither.script⟩

/-- The cells of the empty left text. -/
def firstRow : Cell → List (List Char) → List Cell
  | cell, [] => [cell]
  | cell, r :: rest => cell :: firstRow ⟨0, .right r :: cell.script⟩ rest

/-- The cells for one more left line, after a cell of the same row; the row
    before is given by the cell above it and the cells after that one. -/
def rowAfter (l : List Char) (cell above : Cell) : List (List Char) → List Cell → List Cell
  | r :: rest, next :: aboves =>
    cell :: rowAfter l (.extend l r above next cell) next rest aboves
  | _, _ => [cell]

/-- The cells for one more left line. -/
def nextRow (rights : List (List Char)) (row : List Cell) (l : List Char) : List Cell :=
  match row with
  | [] => []
  | above :: aboves => rowAfter l ⟨0, .left l :: above.script⟩ above rights aboves

/-- A script of two lists of lines. -/
def script (lefts rights : List (List Char)) : List Item :=
  match (lefts.foldl (nextRow rights) (firstRow ⟨0, []⟩ rights)).getLast? with
  | none => []
  | some cell => cell.script.reverse

/-! ## Texts -/

/-- The longest common beginning of two lists, and what follows it in each. -/
def commonStart : List (List Char) → List (List Char) →
    List (List Char) × List (List Char) × List (List Char)
  | l :: ls, r :: rs =>
    if l = r then
      let (common, ls, rs) := commonStart ls rs
      (l :: common, ls, rs)
    else ([], l :: ls, r :: rs)
  | ls, rs => ([], ls, rs)

/-- A script of two lists of lines, whose common start and end are matched first. -/
def ofLines (lefts rights : List (List Char)) : List Item :=
  let (start, lefts, rights) := commonStart lefts rights
  let (finish, lefts, rights) := commonStart lefts.reverse rights.reverse
  start.map .both ++ script lefts.reverse rights.reverse ++ finish.reverse.map .both

/-- One more, empty line for the texts that end with a line feed. -/
def lastItem (left right : List Char) : List Item :=
  match left.getLast? == some '\n', right.getLast? == some '\n' with
  | true, true => [.both []]
  | true, false => [.left []]
  | false, true => [.right []]
  | false, false => []

/-- The line differences of two texts. -/
def ofTexts (left right : List Char) : List Item :=
  ofLines (Text.lines left) (Text.lines right) ++ lastItem left right

end IsaCodec.LineDiff
