import LoxLang.Evaluation.Operators
import LoxLang.Number.Reading

/-!
# Built-in functions

Arithmetic, arrays, the clock and random numbers. Booleans count as numbers here.
-/

namespace LoxLang

/-- The number that a value is converted to: numbers, booleans and texts of numbers can be. -/
def convert (value : Value) : Except Fault Float :=
  match value.toNumber? with
  | some x => .ok x
  | none =>
    match value with
    | .string s =>
      match Number.read? s with
      | some x => .ok x
      | none => .error (.unreadableNumber s)
    | value => .error (.notConvertible value.typeName)

/-- The integer toward zero of the number that a value is converted to. -/
def convertToInteger (value : Value) : Except Fault Int := (convert value).bind toInteger

/-- The exponential, which is infinite only for infinity. -/
def exponential (x : Float) : Except Fault Float :=
  let y := x.exp
  if y.isInf && !x.isInf then .error .mathRange else .ok y

/-- The logarithm of a positive number. -/
def logarithm (x : Float) : Except Fault Float :=
  if x ≤ 0.0 then .error .mathDomain else .ok x.log

/-- The root of a number that is not negative. -/
def squareRoot (x : Float) : Except Fault Float :=
  if x < 0.0 then .error .mathDomain else .ok x.sqrt

/-- A periodic function of a number that is not infinite. -/
def periodic (f : Float → Float) (x : Float) : Except Fault Float :=
  if x.isInf then .error .mathDomain else .ok (f x)

/-- A power. A negative number has no real power with a fraction; whether its complex power is too large is told
first. -/
def power (x y : Float) : Except Fault Float :=
  if x == 0.0 && y < 0.0 && y.isFinite then .error .zeroToNegativePower
  else if x < 0.0 && x.isFinite && y.isFinite && !Number.isIntegral y then
    if (x.abs.pow y).isInf then .error .complexRange else .error (.notConvertible "complex")
  else
    let z := x.pow y
    if z.isInf && x.isFinite && y.isFinite then .error .powerRange else .ok z

def greater (x y : Float) : Float := if y > x then y else x

def lesser (x y : Float) : Float := if y < x then y else x

/-- The number toward zero. -/
def towardZero (x : Float) : Except Fault Float := (toInteger x).map Float.ofInt

namespace Eval

/-- The value of a computation that can meet a fault. -/
def orCrash {α : Type} : Except Fault α → Eval α
  | .ok value => pure value
  | .error fault => crash fault

def nativeToken (name : String) : Token := ⟨.identifier, name, .nil, 0⟩

/-- Ends with an error in a built-in function. -/
def failBuiltin {α : Type} (b : Builtin) (cause : Cause) : Eval α := fail (nativeToken b.name) cause

def readClock : Eval Float := fun m =>
  let (time, clock) := m.clock.take
  .ok time { m with clock := clock }

def nextRandom : Eval Float := fun m =>
  let (number, dice) := m.dice.take
  .ok number { m with dice := dice }

/-- A number between two numbers. -/
def randomBetween (low high : Float) : Eval Float := return low + (high - low) * (← nextRandom)

/-- The argument of a function of one argument. -/
def onlyArgument (args : List Value) : Eval Value :=
  match args with
  | [] => crash .missingArgument
  | value :: _ => return value

def ofNumber (b : Builtin) (args : List Value) (f : Float → Except Fault Float) : Eval Value := do
  match (← onlyArgument args).toNumber? with
  | none => failBuiltin b (.argumentNotNumber b)
  | some x => return .number (← orCrash (f x))

def ofNumbers (b : Builtin) (args : List Value) (f : List Float → Eval Float) : Eval Value := do
  match args.mapM Value.toNumber? with
  | none => failBuiltin b (.argumentsNotNumbers b)
  | some numbers => return .number (← f numbers)

/-- One of the numbers, chosen pair by pair from the first on. -/
def choose (b : Builtin) (better : Float → Float → Float) : List Float → Eval Float
  | [] => crash (.nothingToChoose b.name)
  | first :: rest => return rest.foldl better first

/-- The first number to the power of the second. -/
def raise : List Float → Eval Float
  | x :: y :: _ => orCrash (power x y)
  | _ => crash .missingArgument

/-- A number between the two numbers. -/
def randomWithin : List Float → Eval Float
  | [low, high] => randomBetween low high
  | numbers => crash (.notTwoNumbers numbers.length)

/-- The elements of an array, also reached through one of its functions. -/
def elements? (m : Machine) : Value → Option (Array Value)
  | .array id => some (m.elements id)
  | .arrayFunction _ _ id => some (m.elements id)
  | _ => none

/-- The sum of the elements of an array. They are added from left to right, and every sum is rounded. -/
def sumElements (args : List Value) : Eval Value := do
  match elements? (← get) (← onlyArgument args) with
  | none => failBuiltin .sum (.argumentNotArray .sum)
  | some elements =>
    match elements.toList.mapM Value.toNumber? with
    | none => failBuiltin .sum .elementsNotNumbers
    | some numbers => return .number (numbers.foldl (· + ·) 0.0)

/-- An array of the given size, filled with nil. -/
def makeArray (args : List Value) : Eval Value := do
  let size ← orCrash ((convertToInteger (← onlyArgument args)).bind toCount)
  return .array (← newArray (Array.replicate size.toNat .nil))

def callBuiltin (b : Builtin) (args : List Value) : Eval Value :=
  match b with
  | .clock => return .number (← readClock)
  | .array => makeArray args
  | .max => ofNumbers b args (choose b greater)
  | .min => ofNumbers b args (choose b lesser)
  | .sum => sumElements args
  | .randomRange => ofNumbers b args randomWithin
  | .abs => ofNumber b args fun x => .ok x.abs
  | .random => return .number (← randomBetween 0.0 1.0)
  | .exp => ofNumber b args exponential
  | .log => ofNumber b args logarithm
  | .sqrt => ofNumber b args squareRoot
  | .floor => ofNumber b args towardZero
  | .ceil => ofNumber b args towardZero
  | .sin => ofNumber b args (periodic Float.sin)
  | .cos => ofNumber b args (periodic Float.cos)
  | .tanh => ofNumber b args fun x => .ok x.tanh
  | .pow => ofNumbers b args raise

end Eval

def ArrayAccess.name : ArrayAccess → String
  | get => "get"
  | set => "set"

def ArrayAccess.arity : ArrayAccess → Nat
  | get => 1
  | set => 2

/-- The cell of an array that an index denotes: indices below zero count from the end. -/
def cell? (size : Nat) (index : Int) : Option Nat :=
  if 0 ≤ index && index < size then some index.toNat
  else if index < 0 && -(size : Int) ≤ index then some (index + size).toNat
  else none

/-- The cell of an array that an argument denotes. An infinite index is a fault, any other bad one an error. -/
def cellOf (size : Nat) (index : Value) : Except Fault (Option Nat) :=
  match convertToInteger index with
  | .ok n => .ok (cell? size n)
  | .error .infinityToInteger => .error .infinityToInteger
  | .error _ => .ok none

namespace Eval

/-- The cell of an array that the first argument denotes. -/
def findCell (access : ArrayAccess) (id : Nat) (args : List Value) : Eval Nat := do
  let size := ((← get).elements id).size
  match args with
  | [] => fail (nativeToken access.name) .badIndex
  | index :: _ =>
    match ← orCrash (cellOf size index) with
    | none => fail (nativeToken access.name) .badIndex
    | some cell => return cell

def readElement (id : Nat) (args : List Value) : Eval Value := do
  let cell ← findCell .get id args
  return ((← get).elements id)[cell]?.getD .nil

def writeElement (id : Nat) (args : List Value) : Eval Value := do
  let cell ← findCell .set id args
  match args[1]? with
  | none => fail (nativeToken ArrayAccess.set.name) .badIndex
  | some value =>
    modify fun m => { m with arrays := m.arrays.modify id (·.setIfInBounds cell value) }
    return value

def callArrayFunction (access : ArrayAccess) (id : Nat) (args : List Value) : Eval Value :=
  match access with
  | .get => readElement id args
  | .set => writeElement id args

end Eval
end LoxLang
