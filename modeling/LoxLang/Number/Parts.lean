/-!
# The parts of a number

A number is a 64-bit binary float. Taken apart it is not a number, infinite, or a sign with `mantissa * 2 ^ exponent`.
-/

namespace LoxLang.Number

/-- What the 64 bits of a number say. -/
inductive Parts where
  | notNumber
  | infinite (negative : Bool)
  | finite (negative : Bool) (mantissa : Nat) (exponent : Int)
  deriving Repr, DecidableEq

/-- The exponent of the smallest positive number, and of every number below the normal range. -/
def leastExponent : Int := -1074

/-- The mantissa of a power of two in the normal range. -/
def leastNormalMantissa : Nat := Nat.pow 2 52

/-- Takes a number apart. A number in the normal range has a mantissa of 53 bits. -/
def parts (x : Float) : Parts :=
  let bits : Nat := x.toBits.toNat
  let negative : Bool := Nat.pow 2 63 ≤ bits
  let biased : Nat := bits / Nat.pow 2 52 % Nat.pow 2 11
  let fraction : Nat := bits % Nat.pow 2 52
  if biased = Nat.pow 2 11 - 1 then
    if fraction = 0 then .infinite negative else .notNumber
  else if biased = 0 then
    .finite negative fraction leastExponent
  else
    .finite negative (Nat.pow 2 52 + fraction) ((biased : Int) + leastExponent - 1)

/-- The number with the sign cleared or set. -/
def withSign (negative : Bool) (magnitude : Float) : Float :=
  if negative then -magnitude else magnitude

/-- The sign bit is set, also for minus zero. -/
def isNegative (x : Float) : Bool := Nat.pow 2 63 ≤ x.toBits.toNat

/-- The number toward zero, for a number that is finite. -/
def truncate? (x : Float) : Option Int :=
  match parts x with
  | .finite negative mantissa exponent =>
    let magnitude : Nat :=
      if 0 ≤ exponent then mantissa * Nat.pow 2 exponent.toNat else mantissa / Nat.pow 2 (-exponent).toNat
    some (if negative then -(magnitude : Int) else magnitude)
  | _ => none

/-- A finite number without a fraction. -/
def isIntegral (x : Float) : Bool :=
  match parts x with
  | .finite _ mantissa exponent => 0 ≤ exponent || mantissa % Nat.pow 2 (-exponent).toNat == 0
  | _ => false

end LoxLang.Number
