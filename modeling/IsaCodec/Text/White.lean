/-! # White space

    Two classes of white space and the operations on text that use them.
    Encoding formats and conditions are separated by ASCII blanks.  Listings
    are prose as well, so they use the `White_Space` property of Unicode. -/

namespace IsaCodec.Text

/-- Space, tab, line feed, form feed and carriage return. -/
def isBlank (c : Char) : Bool :=
  c == ' ' || c == '\t' || c == '\n' || c == '\x0c' || c == '\r'

/-- The code points with the Unicode property `White_Space`. -/
def isWhite (c : Char) : Bool :=
  let n := c.toNat
  (0x9 ≤ n && n ≤ 0xd) || n == 0x20 || n == 0x85 || n == 0xa0 || n == 0x1680 ||
    (0x2000 ≤ n && n ≤ 0x200a) || n == 0x2028 || n == 0x2029 || n == 0x202f ||
    n == 0x205f || n == 0x3000

/-! ## Trimming -/

/-- The text without its leading white space. -/
def trimStart (s : List Char) : List Char :=
  s.dropWhile isWhite

/-- The text without its trailing white space. -/
def trimEnd : List Char → List Char
  | [] => []
  | c :: s =>
    match trimEnd s with
    | [] => if isWhite c then [] else [c]
    | kept => c :: kept

/-- The text without leading and trailing white space. -/
def trim (s : List Char) : List Char :=
  trimEnd (trimStart s)

/-- The white space after the last character that is none. -/
def trailing (s : List Char) : List Char :=
  s.drop (trimEnd s).length

/-! ## Words -/

/-- The longest runs of characters that are no white space. -/
def words (s : List Char) : List (List Char) :=
  (s.splitOnP isWhite).filter (!·.isEmpty)

end IsaCodec.Text
