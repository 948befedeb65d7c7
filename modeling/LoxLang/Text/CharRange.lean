/-!
# Ranges of code points

A set of characters given as a table of closed code point ranges.
-/

namespace LoxLang.Text

/-- A closed range of code points, from the first to the last. -/
abbrev CharRange := Nat × Nat

/-- Ranges one behind the other from a code point on, each given by the number of code points before it and in it. -/
def rangesFrom (start : Nat) : List Nat → List CharRange
  | gap :: length :: rest => (start + gap, start + gap + length - 1) :: rangesFrom (start + gap + length) rest
  | _ => []

/-- The character lies in one of the ranges. -/
def inRanges (table : List CharRange) (c : Char) : Bool :=
  table.any fun range => range.1 ≤ c.toNat && c.toNat ≤ range.2

/-- Code points below 128. -/
def isAscii (c : Char) : Bool := c.toNat < 128

end LoxLang.Text
