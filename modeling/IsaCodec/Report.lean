import IsaCodec.Bytes
import IsaCodec.LineDiff
import IsaCodec.Text.White

/-! # Reports

    A report shows how a result differs from what was expected: where it was
    expected, the bytes it came from, and the line differences, in which
    trailing white space is made visible. -/

namespace IsaCodec

/-- An expected text and a result. -/
structure Report where
  /-- Empty if the texts come from no file. -/
  file : String
  line : Nat
  bytes : List Byte
  expected : String
  result : String

namespace Report

/-- Shows a blank or a tab by a visible character. -/
def showWhite (c : Char) : Char :=
  if c == '\t' then '→'
  else if c == ' ' then '•'
  else c

/-- A line with visible white space at its end. -/
def showLine (line : List Char) : String :=
  String.ofList (Text.trimEnd line ++ (Text.trailing line).map showWhite)

/-- A number in a column of five characters. -/
def column (n : Nat) : String :=
  let digits := toString n
  "".pushn ' ' (5 - digits.length) ++ digits

/-- A numbered line with a mark that says which text it belongs to. -/
def row (n : Nat) (mark : Char) (line : List Char) : String :=
  column n ++ " " ++ String.singleton mark ++ " " ++ showLine line ++ "↴\n"

/-- Rows for line differences.  The lines of the left and of the right text
    have numbers of their own; after a common line both go on with that of
    the left text. -/
def rows (left right : Nat) : List LineDiff.Item → String
  | [] => ""
  | .left line :: rest => row left '-' line ++ rows (left + 1) right rest
  | .both line :: rest => row left '|' line ++ rows (left + 1) (left + 1) rest
  | .right line :: rest => row right '+' line ++ rows left (right + 1) rest

/-- Where the texts come from. -/
def location (report : Report) : String :=
  if report.file.isEmpty then ""
  else "     --> " ++ report.file ++ ":" ++ toString report.line ++ "\n"

/-- The bytes, with a rule below them. -/
def raw (report : Report) : String :=
  if report.bytes.isEmpty then ""
  else
    "  raw | " ++ " ".intercalate (report.bytes.map fun byte => String.ofList byte.hexDigits) ++
      "\n" ++ "".pushn ' ' 8 ++ "".pushn '-' 23 ++ "\n"

/-- Text of the report. -/
def text (report : Report) : String :=
  let start := max report.line 1
  report.location ++ report.raw ++
    rows start start (LineDiff.ofTexts report.expected.toList report.result.toList)

/-- A result that is not the expected text is an error. -/
def check (expected result : String) : Except String Unit :=
  if expected = result then .ok () else .error "invalid result"

end Report

end IsaCodec
