import LoxLang.Number.Parts
import LoxLang.Text.Digit
import LoxLang.Text.Blank

/-!
# Reading numbers

The texts that denote a number: an optional sign, then decimal digits with an optional point and exponent, or one of
the words for infinity and for a value that is not a number. Blanks around the text and single underscores between
two digits are ignored, and the decimal digits of every script count.
-/

namespace LoxLang.Number

open LoxLang.Text (decimalValue? isBlank trimBy)

/-- Blanks around the text of a number. The four separators from U+001C are not among them. -/
def isMargin (c : Char) : Bool := isBlank c && !(28 ≤ c.toNat && c.toNat ≤ 31)

/-- Digits with their place values, and what follows them. An underscore may stand between two digits. -/
def splitDigits : List Char → List Nat × List Char
  | c :: '_' :: d :: rest =>
    match decimalValue? c, decimalValue? d with
    | some value, some _ =>
      let (more, after) := splitDigits (d :: rest)
      (value :: more, after)
    | some value, none => ([value], '_' :: d :: rest)
    | none, _ => ([], c :: '_' :: d :: rest)
  | c :: rest =>
    match decimalValue? c with
    | some value =>
      let (more, after) := splitDigits rest
      (value :: more, after)
    | none => ([], c :: rest)
  | [] => ([], [])

/-- The value of digits in base ten. -/
def digitsValue (digits : List Nat) : Nat := digits.foldl (fun value digit => 10 * value + digit) 0

/-- A sign, if there is one, and what follows it. -/
def splitSign : List Char → Bool × List Char
  | '-' :: rest => (true, rest)
  | '+' :: rest => (false, rest)
  | rest => (false, rest)

/-- No number has a digit this many places before or after the point without being infinite or zero. -/
def exponentBound : Nat := 400

/-- The number nearest to `digits * 10 ^ exponent`. -/
def ofDecimal (digits : Nat) (exponent : Int) : Float :=
  let length : Int := (Nat.toDigits 10 digits).length
  if digits = 0 || length + exponent < -(exponentBound : Int) then 0.0
  else if (exponentBound : Int) < length + exponent then 1.0 / 0.0
  else Float.ofScientific digits (exponent < 0) exponent.natAbs

/-- An exponent, or nothing at the end of the text. -/
def readExponent? : List Char → Option Int
  | [] => some 0
  | mark :: rest =>
    if mark = 'e' || mark = 'E' then
      let (negative, rest) := splitSign rest
      match splitDigits rest with
      | ([], _) | (_, _ :: _) => none
      | (digits, []) => some (if negative then -(digitsValue digits : Int) else digitsValue digits)
    else none

/-- Digits, at most one point, and an exponent; at least one digit stands before the exponent. -/
def readMagnitude? (text : List Char) : Option Float :=
  let (whole, rest) := splitDigits text
  let (fraction, rest) :=
    match rest with
    | '.' :: more => splitDigits more
    | rest => ([], rest)
  if whole.isEmpty && fraction.isEmpty then none
  else do
    let exponent ← readExponent? rest
    return ofDecimal (digitsValue (whole ++ fraction)) (exponent - fraction.length)

/-- The words for an infinite number and for a value that is not a number, in any case of letters. -/
def readWord? (text : List Char) : Option Float :=
  let word := String.ofList (text.map Char.toLower)
  if word = "inf" || word = "infinity" then some (1.0 / 0.0)
  else if word = "nan" then some (0.0 / 0.0)
  else none

/-- The number that a text denotes. -/
def read? (text : String) : Option Float :=
  let (negative, magnitude) := splitSign (trimBy isMargin text.toList)
  ((readWord? magnitude).or (readMagnitude? magnitude)).map (withSign negative)

end LoxLang.Number
