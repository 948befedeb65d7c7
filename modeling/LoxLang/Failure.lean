import LoxLang.Text.Quoted
import LoxLang.Value

/-!
# How evaluation ends

Besides yielding a value, evaluation can leave a loop, return from a function, meet an error of the program, which is
reported to its user, or meet a fault, which is not. It can also run out of the steps it was given.
-/

namespace LoxLang

/-- The errors of a running program. -/
inductive Cause where
  | operandNotNumber
  | operandsNotNumbers
  | divisionByZero
  | operandsOfProduct
  | operandsOfSum
  | undefinedVariable (name : String)
  | undefinedProperty (name : String)
  | notCallable
  | wrongArity (expected actual : Nat)
  | noFields
  | noProperties
  | arrayHasNoFields
  | badIndex
  | nilHasNoText
  | argumentNotNumber (function : Builtin)
  | argumentsNotNumbers (function : Builtin)
  | argumentNotArray (function : Builtin)
  | elementsNotNumbers

def Cause.message : Cause → String
  | operandNotNumber => "Operand must be a number."
  | operandsNotNumbers => "Operands must be numbers."
  | divisionByZero => "Division by zero."
  | operandsOfProduct => "Operands must be numbers or a string and a number."
  | operandsOfSum => "Operands must be two numbers or two strings."
  | undefinedVariable name => "Undefined variable '" ++ name ++ "'."
  | undefinedProperty name => "Undefined property '" ++ name ++ "'."
  | notCallable => "Can only call functions and classes."
  | wrongArity expected actual =>
    "Expected " ++ Number.integerText expected ++ " arguments but got " ++ Number.integerText actual ++ "."
  | noFields => "Only instances have fields."
  | noProperties => "Only instances have properties."
  | arrayHasNoFields => "Can't add properties to arrays."
  | badIndex => "Index out of bounds or invalid index type."
  | nilHasNoText => "Error: Variable access before initialization or assignment"
  | argumentNotNumber function => "Argument to " ++ function.name ++ "() must be a number."
  | argumentsNotNumbers .randomRange => "Arguments to random_range() must be numbers."
  | argumentsNotNumbers function => "All arguments to " ++ function.name ++ "() must be numbers."
  | argumentNotArray function => "Argument to " ++ function.name ++ "() must be an array."
  | elementsNotNumbers => "All array elements must be numbers."

/-- An error of a running program, and the token at which it was met. -/
structure RuntimeError where
  token : Token
  cause : Cause

def RuntimeError.message (e : RuntimeError) : String := e.cause.message

/-- What is wrong with a declaration or a use of `super`, beyond what is checked before a program runs. -/
inductive DeclarationFault where
  | superclassNotClass
  | notTrait (name : String)
  | duplicateInTraits (name : String)
  | declaredByTrait (name : String)
  | noSuperMethod (name : String)
  deriving Repr, DecidableEq

def DeclarationFault.text : DeclarationFault → String
  | superclassNotClass => "Superclass must be a class."
  | notTrait name => name ++ " is not a trait."
  | duplicateInTraits name => "Duplicate method '" ++ name ++ "' found in traits."
  | declaredByTrait name => "A previous trait declares a method named '" ++ name ++ "'."
  | noSuperMethod name => "Undefined property '" ++ name ++ ".'"

/-- Failures that are not reported as errors of the program. -/
inductive Fault where
  | declaration (fault : DeclarationFault)
  | scopeTooDeep
  | unresolvedSuper
  | superNotClass (typeName : String)
  | missingStatement
  | cannotBind (typeName : String)
  | cannotCall (typeName : String)
  | noClass
  | notNumberToInteger
  | infinityToInteger
  | countTooLarge
  | notConvertible (typeName : String)
  | unreadableNumber (text : String)
  | mathDomain
  | mathRange
  | powerRange
  | complexRange
  | zeroToNegativePower
  | missingArgument
  | nothingToChoose (function : String)
  | notTwoNumbers (count : Nat)
  deriving Repr, DecidableEq

/-- The message about a value that is asked for something it does not have. -/
def lacks (typeName feature : String) : String :=
  "'" ++ typeName ++ "' object has no attribute '" ++ feature ++ "'"

def Fault.message : Fault → String
  | declaration fault => "(<lox.tokens.Token object>, " ++ Text.quoted fault.text ++ ")"
  | scopeTooDeep => "Enclosing environment is None."
  | unresolvedSuper => "<lox.expr.Super object>"
  | superNotClass typeName => lacks typeName "find_method"
  | missingStatement => lacks "NoneType" "accept"
  | cannotBind typeName => lacks typeName "bind"
  | cannotCall typeName => lacks typeName "call"
  | noClass => ""
  | notNumberToInteger => "cannot convert float NaN to integer"
  | infinityToInteger => "cannot convert float infinity to integer"
  | countTooLarge => "cannot fit 'int' into an index-sized integer"
  | notConvertible typeName => "float() argument must be a string or a real number, not '" ++ typeName ++ "'"
  | unreadableNumber text => "could not convert string to float: " ++ Text.quoted text
  | mathDomain => "math domain error"
  | mathRange => "math range error"
  | powerRange => "(34, 'Numerical result out of range')"
  | complexRange => "complex exponentiation"
  | zeroToNegativePower => "0.0 cannot be raised to a negative power"
  | missingArgument => "list index out of range"
  | nothingToChoose function => function ++ "() arg is an empty sequence"
  | notTwoNumbers count =>
    if count < 2 then "not enough values to unpack (expected 2, got " ++ Number.integerText count ++ ")"
    else "too many values to unpack (expected 2)"

/-- How evaluation ends if not with a value. -/
inductive Ending where
  | broke
  | returned (value : Value)
  | failed (error : RuntimeError)
  | crashed (fault : Fault)
  | outOfFuel

instance : Inhabited Ending := ⟨.outOfFuel⟩

/-- The message of an ending. Leaving a loop and returning have none. -/
def Ending.message : Ending → String
  | broke => ""
  | returned _ => ""
  | failed error => error.message
  | crashed fault => fault.message
  | outOfFuel => ""

/-- Ends with an error at a token. -/
def Ending.error (token : Token) (cause : Cause) : Ending := .failed ⟨token, cause⟩

end LoxLang
