import LoxLang.Number.Shortest

/-!
# The text of a number

`text` writes a number with the fewest digits that read back as it, always with a point or an exponent;
`integerText` writes the exact value of a number without a fraction.
-/

namespace LoxLang.Number

/-- How the digits of a decimal are laid out. -/
structure Layout where
  /-- The least power of ten of the first digit that is written without an exponent. -/
  leastPositional : Int
  /-- The first power of ten of the first digit that is written with an exponent. -/
  firstScientific : Int
  /-- The least number of digits of an exponent. -/
  exponentWidth : Nat

/-- Numbers from 0.0001 up to below 10^16 have no exponent; an exponent has a sign and at least two digits. -/
def layout : Layout := ⟨-4, 16, 2⟩

/-- A number filled with zeros in front. -/
def padded (width value : Nat) : String :=
  let digits := Nat.toDigits 10 value
  String.ofList (List.replicate (width - digits.length) '0' ++ digits)

/-- The digits with a point after the first `before` of them, and zeros where digits are missing. -/
def positional (digits : List Char) (before : Int) : String :=
  if before ≤ 0 then
    "0." ++ String.ofList (List.replicate (-before).toNat '0' ++ digits)
  else
    let whole := digits.take before.toNat
    let fraction := digits.drop before.toNat
    String.ofList (whole ++ List.replicate (before.toNat - whole.length) '0') ++ "." ++
      (if fraction.isEmpty then "0" else String.ofList fraction)

/-- The digits with a point after the first of them, if there are more, and an exponent. -/
def scientific (width : Nat) (digits : List Char) (exponent : Int) : String :=
  let fraction := digits.drop 1
  String.ofList (digits.take 1) ++ (if fraction.isEmpty then "" else "." ++ String.ofList fraction) ++ "e" ++
    (if exponent < 0 then "-" else "+") ++ padded width exponent.natAbs

/-- A positive decimal in the given layout. Zeros at the end of its digits are left out. -/
def Decimal.text (l : Layout) (d : Decimal) : String :=
  let all := Nat.toDigits 10 d.digits
  let before := all.length + d.exponent
  let digits := (all.reverse.dropWhile (· == '0')).reverse
  if before - 1 < l.leastPositional || l.firstScientific ≤ before - 1 then
    scientific l.exponentWidth digits (before - 1)
  else
    positional digits before

/-- The text of a number: the fewest digits that read back, or the name of a value that has no digits. -/
def text (x : Float) : String :=
  match parts x with
  | .notNumber => "nan"
  | .infinite negative => if negative then "-inf" else "inf"
  | .finite negative mantissa exponent =>
    (if negative then "-" else "") ++
      (if mantissa = 0 then "0.0" else (shortest ⟨mantissa, exponent⟩).text layout)

/-- An integer in decimal. -/
def integerText (n : Int) : String :=
  (if n < 0 then "-" else "") ++ padded 1 n.natAbs

end LoxLang.Number
