import LoxLang.Display
import LoxLang.Number.Remainder

/-!
# Operators

Arithmetic, comparison and text operators on values. They need nothing of the machine. An operator of any other kind
yields nil.
-/

namespace LoxLang

/-- The integer toward zero. -/
def toInteger (x : Float) : Except Fault Int :=
  match Number.parts x with
  | .notNumber => .error .notNumberToInteger
  | .infinite _ => .error .infinityToInteger
  | .finite .. => .ok ((Number.truncate? x).getD 0)

/-- The least integer that is too large for a count. -/
def countLimit : Int := Nat.pow 2 63

/-- The integer, if it can be a count. -/
def toCount (n : Int) : Except Fault Int :=
  if n < -countLimit || countLimit ≤ n then .error .countTooLarge else .ok n

/-- The text a number of times. -/
def repeatText (text : String) (count : Nat) : String :=
  if text.isEmpty then "" else String.join (List.replicate count text)

def onNumbers (operator : Token) (operation : Float → Float → Except Ending Value) (left right : Value) :
    Except Ending Value :=
  match left, right with
  | .number x, .number y => operation x y
  | _, _ => .error (.error operator .operandsNotNumbers)

def compareNumbers (operator : Token) (holds : Float → Float → Bool) (left right : Value) : Except Ending Value :=
  onNumbers operator (fun x y => .ok (.bool (holds x y))) left right

/-- An operation with a divisor that must not be zero. -/
def divideNumbers (operator : Token) (operation : Float → Float → Float) (left right : Value) : Except Ending Value :=
  onNumbers operator
    (fun x y => if y == 0.0 then .error (.error operator .divisionByZero) else .ok (.number (operation x y)))
    left right

/-- The product of two numbers, or a text repeated. The count is bounded, the length of the text is not. -/
def multiply (operator : Token) (left right : Value) : Except Ending Value :=
  match left, right with
  | .number x, .number y => .ok (.number (x * y))
  | .string s, .number y =>
    match (toInteger y).bind toCount with
    | .ok count => .ok (.string (repeatText s count.toNat))
    | .error fault => .error (.crashed fault)
  | _, _ => .error (.error operator .operandsOfProduct)

/-- The sum of two numbers, or two texts joined; a number next to a text is joined as it is printed. -/
def add (operator : Token) (left right : Value) : Except Ending Value :=
  match left, right with
  | .number x, .number y => .ok (.number (x + y))
  | .string s, .string t => .ok (.string (s ++ t))
  | .string s, .number y => .ok (.string (s ++ displayNumber y))
  | .number x, .string t => .ok (.string (displayNumber x ++ t))
  | _, _ => .error (.error operator .operandsOfSum)

def applyBinary (operator : Token) (left right : Value) : Except Ending Value :=
  match operator.kind with
  | .minus => onNumbers operator (fun x y => .ok (.number (x - y))) left right
  | .slash => divideNumbers operator (· / ·) left right
  | .modulo => divideNumbers operator Number.remainder left right
  | .star => multiply operator left right
  | .plus => add operator left right
  | .greater => compareNumbers operator (fun x y => x > y) left right
  | .greaterEqual => compareNumbers operator (fun x y => x ≥ y) left right
  | .less => compareNumbers operator (fun x y => x < y) left right
  | .lessEqual => compareNumbers operator (fun x y => x ≤ y) left right
  | .bangEqual => .ok (.bool (!left.equals right))
  | .equalEqual => .ok (.bool (left.equals right))
  | _ => .ok .nil

def applyUnary (operator : Token) (operand : Value) : Except Ending Value :=
  match operator.kind with
  | .minus =>
    match operand with
    | .number x => .ok (.number (-x))
    | _ => .error (.error operator .operandNotNumber)
  | .bang => .ok (.bool !operand.isTruthy)
  | _ => .ok .nil

/-- The first operand of a logical operator decides alone: a true one for `or`, a false one for any other. -/
def decidesAlone (operator : Token) (left : Value) : Bool :=
  if operator.kind = .kwOr then left.isTruthy else !left.isTruthy

end LoxLang
