import LoxLang.Text.CharRange

/-!
# Digits

Two classes of digits. A digit may stand in a numeral of the source; a decimal digit also has a place value from 0
to 9. Superscripts and circled digits are digits without being decimal digits.
-/

namespace LoxLang.Text

/-- The digits from code point 128 on (Unicode 14). -/
def digitRanges : List CharRange := rangesFrom 128
  [50, 2, 5, 1, 1446, 10, 134, 10, 198, 10, 412, 10, 118, 10, 118, 10, 118, 10, 118, 10, 118, 10, 118, 10, 118, 10,
   118, 10, 118, 10, 96, 10, 118, 10, 70, 10, 278, 10, 70, 10, 719, 9, 1134, 10, 38, 10, 300, 10, 128, 11, 165, 10, 6,
   10, 182, 10, 86, 10, 134, 10, 6, 10, 1046, 1, 3, 6, 6, 10, 982, 9, 11, 9, 11, 9, 89, 1, 10, 9, 1, 1, 630, 9, 1, 9,
   1, 9, 32397, 10, 678, 10, 38, 10, 198, 10, 22, 10, 86, 10, 406, 10, 21270, 10, 1414, 10, 1430, 4, 748, 10, 294, 9,
   489, 9, 11, 10, 128, 10, 60, 10, 144, 10, 278, 10, 342, 10, 118, 10, 374, 10, 102, 10, 102, 10, 422, 10, 102, 10,
   758, 10, 246, 10, 70, 10, 19638, 10, 86, 10, 134, 10, 27764, 50, 2368, 10, 422, 10, 1622, 10, 1958, 11, 2789, 10]

/-- A decimal digit, or a digit in a special position such as a superscript. -/
def isDigit (c : Char) : Bool :=
  if isAscii c then c.isDigit else inRanges digitRanges c

/-- The zeros of the decimal scripts from code point 128 on (Unicode 14). The nine other digits of a script follow
its zero in order. -/
def decimalZeros : List Nat :=
  [1632, 1776, 1984, 2406, 2534, 2662, 2790, 2918, 3046, 3174, 3302, 3430, 3558, 3664, 3792, 3872, 4160, 4240, 6112,
   6160, 6470, 6608, 6784, 6800, 6992, 7088, 7232, 7248, 42528, 43216, 43264, 43472, 43504, 43600, 44016, 65296,
   66720, 68912, 69734, 69872, 69942, 70096, 70384, 70736, 70864, 71248, 71360, 71472, 71904, 72016, 72784, 73040,
   73120, 92768, 92864, 93008, 120782, 120792, 120802, 120812, 120822, 123200, 123632, 125264, 130032]

/-- The place value of a decimal digit. -/
def decimalValue? (c : Char) : Option Nat :=
  if isAscii c then
    if c.isDigit then some (c.toNat - 48) else none
  else
    (decimalZeros.find? fun start => start ≤ c.toNat && c.toNat < start + 10).map (c.toNat - ·)

end LoxLang.Text
