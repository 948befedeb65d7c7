import LoxLang.Number.Parts

/-!
# Remainders

The remainder of a division that rounds its quotient down: it has the sign of the divisor.
-/

namespace LoxLang.Number

/-- The remainder of a division that rounds its quotient toward zero, without its sign. The result is exact: it is
a multiple of the smaller of the two units, and less than the divisor. -/
def remainderMagnitude (m : Nat) (p : Int) (n : Nat) (q : Int) : Float :=
  let unit := min p q
  let rest := (m * Nat.pow 2 (p - unit).toNat) % (n * Nat.pow 2 (q - unit).toNat)
  Float.scaleB (Float.ofNat rest) unit

/-- The remainder of a division that rounds its quotient toward zero: it has the sign of the dividend. -/
def truncatedRemainder (x y : Float) : Float :=
  match parts x, parts y with
  | .finite negative m p, .finite _ n q =>
    if n = 0 then 0.0 / 0.0 else withSign negative (remainderMagnitude m p n q)
  | .finite .., .infinite _ => x
  | _, _ => 0.0 / 0.0

/-- The remainder of a division that rounds its quotient down, for a divisor that is not zero. A zero result has the
sign of the divisor. -/
def remainder (x y : Float) : Float :=
  let rest := truncatedRemainder x y
  if rest == 0.0 then withSign (isNegative y) 0.0
  else if (y < 0.0) != (rest < 0.0) then rest + y
  else rest

end LoxLang.Number
