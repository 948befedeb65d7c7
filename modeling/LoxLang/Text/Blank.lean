import LoxLang.Text.CharRange

/-!
# Blank characters

The white space of Unicode, and trimming a text by it.
-/

namespace LoxLang.Text

/-- The blank characters from code point 128 on (Unicode 14). -/
def blankRanges : List CharRange :=
  [(0x85, 0x85), (0xa0, 0xa0), (0x1680, 0x1680), (0x2000, 0x200a), (0x2028, 0x2029), (0x202f, 0x202f),
   (0x205f, 0x205f), (0x3000, 0x3000)]

/-- White space: tabulator, line feed, vertical tabulator, form feed, carriage return, the four separators
from U+001C, the space, and the blank characters beyond ASCII. -/
def isBlank (c : Char) : Bool :=
  if isAscii c then
    (9 ≤ c.toNat && c.toNat ≤ 13) || (28 ≤ c.toNat && c.toNat ≤ 32)
  else
    inRanges blankRanges c

/-- The text without the characters of the class at its two ends. -/
def trimBy (drop : Char → Bool) (text : List Char) : List Char :=
  ((text.dropWhile drop).reverse.dropWhile drop).reverse

end LoxLang.Text
