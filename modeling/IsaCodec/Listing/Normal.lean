import IsaCodec.Text.White

/-! # Normal form of expected texts

    An expected text is a list of instructions separated by `|`.  In normal
    form the words of each item have single spaces between them, and so have
    the items and the separators. -/

namespace IsaCodec.Listing

/-- The words of an item with single spaces between them. -/
def normalizeItem (item : List Char) : List Char :=
  [' '].intercalate (Text.words item)

/-- Normal form of the characters of an expected text. -/
def normalizeChars (s : List Char) : List Char :=
  [' ', '|', ' '].intercalate ((s.splitOn '|').map normalizeItem)

/-- Normal form of an expected text. -/
def normalize (text : String) : String :=
  String.ofList (normalizeChars text.toList)

end IsaCodec.Listing
