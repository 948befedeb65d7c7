import LoxLang.Bindings
import LoxLang.Syntax

/-!
# Values

What expressions evaluate to. Functions, classes and traits never change, so they are values by themselves; what can
change, the fields of an object and the elements of an array, is kept in the machine under a number. Two objects are
the same if they have the same number.
-/

namespace LoxLang

/-- The number of a frame: the variables of one scope of a running program. -/
abbrev FrameId := Nat

/-- The frames that a piece of code can see, from the innermost to the global one. -/
abbrev Frames := List FrameId

/-- The built-in functions. -/
inductive Builtin where
  | clock | array | max | min | sum | randomRange | abs | random | exp | log | sqrt | floor | ceil | sin | cos | tanh
  | pow
  deriving Repr, DecidableEq

namespace Builtin

def arity : Builtin → Nat
  | clock | random => 0
  | max | min | randomRange | pow => 2
  | _ => 1

def name : Builtin → String
  | clock => "clock"
  | array => "Array"
  | max => "max"
  | min => "min"
  | sum => "sum"
  | randomRange => "random_range"
  | abs => "abs"
  | random => "random"
  | exp => "exp"
  | log => "log"
  | sqrt => "sqrt"
  | floor => "floor"
  | ceil => "ceil"
  | sin => "sin"
  | cos => "cos"
  | tanh => "tanh"
  | pow => "pow"

/-- The text of a built-in function. The clock and the maker of arrays do not show their names. -/
def text : Builtin → String
  | clock | array => "<native fn>"
  | b => "<native fn " ++ b.name ++ ">"

end Builtin

/-- A function together with the frames it was made in. Every one that is made has a number of its own. -/
structure Closure where
  id : Nat
  decl : FunDecl
  frames : Frames
  isInitializer : Bool

/-- What a class can have as a method. -/
inductive Method where
  | closure (f : Closure)
  | builtin (b : Builtin)

def Method.arity : Method → Nat
  | closure f => f.decl.arity
  | builtin b => b.arity

/-- A class: its name, the class it extends, the class that holds its own methods, and the methods of its instances. -/
structure Class where
  id : Nat
  name : String
  superclass : Option Class
  metaclass : Option Class
  methods : Bindings Method

namespace Class

/-- The method of a class: its own, or that of the nearest class it extends that has one. -/
def findMethod? (name : String) : Class → Option Method
  | ⟨_, _, none, _, methods⟩ => methods.get? name
  | ⟨_, _, some base, _, methods⟩ => (methods.get? name).or (base.findMethod? name)

/-- The number of arguments that making an instance needs. -/
def arity (c : Class) : Nat :=
  match c.findMethod? initName with
  | some method => method.arity
  | none => 0

end Class

/-- An object that was made by a class. -/
structure Instance where
  id : Nat
  madeBy : Option Class

/-- A trait: methods that a class can include. -/
structure Trait where
  id : Nat
  name : Token
  methods : Bindings Closure

/-- The two functions to reach the elements of an array. -/
inductive ArrayAccess where
  | get
  | set
  deriving Repr, DecidableEq

/-- Values. -/
inductive Value where
  | nil
  | bool (value : Bool)
  | number (value : Float)
  | string (value : String)
  | array (id : Nat)
  | object (o : Instance)
  | classObject (c : Class)
  | function (f : Closure)
  | trait (t : Trait)
  | builtin (b : Builtin)
  | arrayFunction (id : Nat) (access : ArrayAccess) (array : Nat)

namespace Value

instance : Inhabited Value := ⟨.nil⟩

def ofLiteral : Literal → Value
  | .nil => nil
  | .bool b => bool b
  | .number x => number x
  | .string s => string s

/-- The condition of a loop or a branch holds. Nil, false, zero and the empty text count as false. -/
def isTruthy : Value → Bool
  | nil => false
  | bool b => b
  | number x => !(x == 0.0)
  | string s => !s.isEmpty
  | _ => true

/-- The number that a boolean counts as, or a number itself. -/
def toNumber? : Value → Option Float
  | number x => some x
  | bool true => some 1.0
  | bool false => some 0.0
  | _ => none

/-- Two values are equal. Booleans equal the numbers one and zero; objects equal only themselves. -/
def equals : Value → Value → Bool
  | nil, nil => true
  | string s, string t => s == t
  | array a, array b => a == b
  | object a, object b => a.id == b.id
  | classObject a, classObject b => a.id == b.id
  | function a, function b => a.id == b.id
  | trait a, trait b => a.id == b.id
  | builtin a, builtin b => a == b
  | arrayFunction a _ _, arrayFunction b _ _ => a == b
  | a, b =>
    match a.toNumber?, b.toNumber? with
    | some x, some y => x == y
    | _, _ => false

def typeName : Value → String
  | nil => "NoneType"
  | bool _ => "bool"
  | number _ => "float"
  | string _ => "str"
  | array _ => "LoxArray"
  | object _ => "LoxInstance"
  | classObject _ => "LoxClass"
  | function _ => "LoxFunction"
  | trait _ => "LoxTrait"
  | builtin .clock => "ClockCallable"
  | builtin .array => "ArrayCallable"
  | builtin .max => "MaxCallable"
  | builtin .min => "MinCallable"
  | builtin .sum => "SumCallable"
  | builtin .randomRange => "RandomRangeCallable"
  | builtin .abs => "AbsCallable"
  | builtin .random => "RandomCallable"
  | builtin .exp => "ExpCallable"
  | builtin .log => "LogCallable"
  | builtin .sqrt => "SqrtCallable"
  | builtin .floor => "FloorCallable"
  | builtin .ceil => "CeilCallable"
  | builtin .sin => "SinCallable"
  | builtin .cos => "CosCallable"
  | builtin .tanh => "TanhCallable"
  | builtin .pow => "PowCallable"
  | arrayFunction _ .get _ => "ArrayGetCallable"
  | arrayFunction _ .set _ => "ArraySetCallable"

end Value

/-- A method by itself, bound to no object. -/
def Method.toValue : Method → Value
  | closure f => .function f
  | builtin b => .builtin b
end LoxLang
