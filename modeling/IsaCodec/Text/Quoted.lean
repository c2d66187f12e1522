import IsaCodec.Text.DefaultIgnorable
import IsaCodec.Text.GraphemeExtend
import IsaCodec.Text.Printable

/-! # Quoted text

    Text between double quotes that shows every character: what would not be
    seen on its own is written as an escape. -/

namespace IsaCodec.Text

/-- The escape of a character by its code point in base sixteen. -/
def codePointEscape (c : Char) : String :=
  "\\u\x7b" ++ String.ofList (Nat.toDigits 16 c.toNat) ++ "\x7d"

/-- The character can be told from its neighbours on the page: it is printable, leaves a mark
    and does not join the character before it. -/
def standsOut (c : Char) : Bool :=
  isPrintable c && !isDefaultIgnorable c && (!isGraphemeExtend c || isHalfwidthSoundMark c)

/-- A character between quotes: six have a short escape, those that stand out are written as
    they are, and all others are escaped by their code point. -/
def escaped (c : Char) : String :=
  match c with
  | '"' => "\\\""
  | '\\' => "\\\\"
  | '\t' => "\\t"
  | '\n' => "\\n"
  | '\r' => "\\r"
  | '\x00' => "\\0"
  | c => if standsOut c then String.singleton c else codePointEscape c

/-- The text between double quotes. -/
def quoted (text : String) : String :=
  "\"" ++ String.join (text.toList.map escaped) ++ "\""

end IsaCodec.Text
