import LoxLang.Number.Parts

/-!
# Shortest decimals

Every positive finite number is the one nearest to a whole interval of decimals. `shortest` gives the decimal of that
interval with the fewest digits, and among those the nearest to the number.
-/

namespace LoxLang.Number

/-- A decimal `digits * 10 ^ exponent`. -/
structure Decimal where
  digits : Nat
  exponent : Int
  deriving Repr, DecidableEq

/-- A binary fraction `mantissa * 2 ^ exponent`. -/
structure Binary where
  mantissa : Nat
  exponent : Int
  deriving Repr, DecidableEq

/-- Compares a decimal with a binary fraction, exactly. -/
def Decimal.compare (d : Decimal) (b : Binary) : Ordering :=
  Ord.compare
    (d.digits * Nat.pow 10 d.exponent.toNat * Nat.pow 2 (-b.exponent).toNat)
    (b.mantissa * Nat.pow 2 b.exponent.toNat * Nat.pow 10 (-d.exponent).toNat)

/-- The decimals that are read as one number: from `lower` to `upper`, the two ends included or not. -/
structure Interval where
  lower : Binary
  upper : Binary
  closed : Bool
  deriving Repr, DecidableEq

/-- The decimals nearest to the number `mantissa * 2 ^ exponent`. The gap below a power of two is half as wide as
the one above it, and a decimal half way between two numbers goes to the even mantissa. -/
def Interval.around (b : Binary) : Interval :=
  let narrow := b.mantissa = leastNormalMantissa && leastExponent < b.exponent
  { lower := ⟨4 * b.mantissa - (if narrow then 1 else 2), b.exponent - 2⟩
    upper := ⟨4 * b.mantissa + 2, b.exponent - 2⟩
    closed := b.mantissa % 2 == 0 }

/-- The decimal is read as the number of the interval. -/
def Interval.contains (i : Interval) (d : Decimal) : Bool :=
  match d.compare i.lower, d.compare i.upper with
  | .gt, .lt => true
  | .eq, _ | _, .eq => i.closed
  | _, _ => false

/-- The greatest multiple of `10 ^ exponent` that is at most the binary fraction. -/
def Binary.floorAt (b : Binary) (exponent : Int) : Nat :=
  (b.mantissa * Nat.pow 2 b.exponent.toNat * Nat.pow 10 (-exponent).toNat) /
    (Nat.pow 2 (-b.exponent).toNat * Nat.pow 10 exponent.toNat)

/-- The number of digits before the point: the least `k` with `b < 10 ^ k`, for a positive `b`. The logarithm of two
is taken as 0.30103, which is close enough over the range of the exponents. -/
def Binary.magnitude (b : Binary) : Int :=
  let low := Int.fdiv ((Nat.log2 b.mantissa + b.exponent) * 30103) 100000
  if Decimal.compare ⟨1, low + 1⟩ b = .gt then low + 1 else low + 2

/-- Of two decimals around the number, the one nearer to it; half way, the one with the even last digit. -/
def nearer (b : Binary) (below above : Decimal) : Decimal :=
  match Decimal.compare ⟨5 * (below.digits + above.digits), below.exponent - 1⟩ b with
  | .gt => below
  | .lt => above
  | .eq => if below.digits % 2 == 0 then below else above

/-- The best decimal with digits down to the given power of ten, if one is in the interval. -/
def bestAt? (b : Binary) (exponent : Int) : Option Decimal :=
  let below : Decimal := ⟨b.floorAt exponent, exponent⟩
  let above : Decimal := ⟨b.floorAt exponent + 1, exponent⟩
  let interval := Interval.around b
  match interval.contains below, interval.contains above with
  | true, true => some (nearer b below above)
  | true, false => some below
  | false, true => some above
  | false, false => none

/-- Seventeen digits are enough for every number. -/
def maxDigits : Nat := 17

/-- The decimal with the fewest digits that is read as the number, and of these the nearest. -/
def shortest (b : Binary) : Decimal :=
  let magnitude := b.magnitude
  let tries := (List.range maxDigits).findSome? fun (n : Nat) => bestAt? b (magnitude - (n + 1))
  tries.getD ⟨b.floorAt (magnitude - maxDigits), magnitude - maxDigits⟩

end LoxLang.Number
