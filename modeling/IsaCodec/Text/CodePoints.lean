/-! # Intervals of code points

    A property of characters is a table: the intervals of the code points that
    have it, in ascending order. -/

namespace IsaCodec.Text

/-- The code points from the first to the last. -/
structure CodePoints where
  first : Nat
  last : Nat
deriving DecidableEq

namespace CodePoints

/-- The code point lies between the two ends or is one of them. -/
def contains (interval : CodePoints) (n : Nat) : Bool :=
  interval.first ≤ n && n ≤ interval.last

/-- Some interval of the table contains the code point. -/
def covers (table : List CodePoints) (n : Nat) : Bool :=
  table.any (·.contains n)

/-- Every interval starts at its lower end and after a gap that follows the one before. -/
def ascending : List CodePoints → Bool
  | [] => true
  | [a] => a.first ≤ a.last
  | a :: b :: rest => a.first ≤ a.last && a.last + 1 < b.first && ascending (b :: rest)

end CodePoints

end IsaCodec.Text
