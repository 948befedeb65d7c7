import LoxLang.Bindings
import LoxLang.Report
import LoxLang.Scope.Stack

/-!
# Local scopes

The scopes around a place in a program, and what is reported about names in them. The global scope is not among them.
-/

namespace LoxLang.Scope

/-- The names declared in a scope; a name whose value is not set yet has `false`. -/
abbrev Declared := Bindings Bool

/-- What a function body belongs to. -/
inductive FunctionContext where
  | none
  | function
  | initializer
  | method
  deriving Repr, DecidableEq, Inhabited

/-- What a class body belongs to. -/
inductive ClassContext where
  | none
  | plainClass
  | subclass
  | trait
  deriving Repr, DecidableEq, Inhabited

/-- What is reported about the use of names. -/
inductive ScopeError where
  | alreadyDeclared
  | readInOwnInitializer
  | returnOutsideFunction
  | valueFromInitializer
  | thisOutsideClass
  | superOutsideClass
  | superInTrait
  | superWithoutSuperclass
  | inheritsFromItself
  deriving Repr, DecidableEq

def ScopeError.message : ScopeError → String
  | alreadyDeclared => "Variable with this name already declared in this scope."
  | readInOwnInitializer => "Cannot read local variable in its own initializer."
  | returnOutsideFunction => "Cannot return from top-level code."
  | valueFromInitializer => "Cannot return a value from an initializer."
  | thisOutsideClass => "Cannot use 'this' outside of a class."
  | superOutsideClass => "Can't use 'super' outside of a class."
  | superInTrait => "Can't use 'super' in a trait."
  | superWithoutSuperclass => "Can't use 'super' in a class with no superclass."
  | inheritsFromItself => "A class can't inherit from itself."

/-- The kinds of occurrences that are resolved. -/
inductive Occurrence where
  | variable_
  | assign
  | this
  | super
  deriving Repr, DecidableEq

/-- An occurrence for which a declaration was found, this many scopes out. -/
structure Resolution where
  occurrence : Occurrence
  name : Token
  depth : Nat

/-- What cannot be resolved at all: something that is no part of a program, or anything in a scope that is not there. -/
inductive Fault where
  | unsupported (value : Literal)
  | stack (error : StackError)

/-- The name of the type of a value that is no part of a program. -/
def typeName : Literal → String
  | .nil => "NoneType"
  | .bool _ => "bool"
  | .number _ => "float"
  | .string _ => "str"

def Fault.message : Fault → String
  | unsupported value => "Unsupported type: <class '" ++ typeName value ++ "'>"
  | stack error => error.message

/-- What is known at a place in a program, and what has been found so far. -/
structure State where
  scopes : Stack Declared
  function : FunctionContext
  classBody : ClassContext
  errors : Array (ScopeError × Token)
  resolutions : Array Resolution
  deriving Inhabited

/-- Outside of all scopes. -/
def State.start (scopes : List Declared) : State :=
  { scopes := ⟨scopes⟩, function := .none, classBody := .none, errors := #[], resolutions := #[] }

def State.reports (s : State) : List Report :=
  s.errors.toList.map fun (error, token) => ⟨.token token, error.message⟩

/-- Resolving changes the state. A fault leaves the state as it was when it was met. -/
abbrev Resolve := EStateM Fault State

def report (error : ScopeError) (token : Token) : Resolve Unit :=
  modify fun s => { s with errors := s.errors.push (error, token) }

/-- Changes the innermost scope, if there is one. -/
def State.modifyInnermost (s : State) (change : Declared → Declared) : State :=
  match s.scopes.items with
  | [] => s
  | inner :: outer => { s with scopes := ⟨change inner :: outer⟩ }

def beginScope : Resolve Unit := modify fun s => { s with scopes := s.scopes.push .empty }

/-- Closes the innermost scope, which has to be there. -/
def endScope : Resolve Unit := do
  match (← get).scopes.pop with
  | .ok (_, outer) => modify fun s => { s with scopes := outer }
  | .error error => throw (.stack error)

/-- Sets a name in the innermost scope, which has to be there. -/
def setName (name : String) : Resolve Unit := do
  match (← get).scopes.peek with
  | .ok _ => modify (·.modifyInnermost (·.put name true))
  | .error error => throw (.stack error)

/-- Sets names in the innermost scope, in order. -/
def setAll : List String → Resolve Unit
  | [] => return ()
  | name :: rest => do
    setName name
    setAll rest

/-- Runs inside a new scope, in which some names are set from the start. -/
def inScope {α : Type} (names : List String) (body : Resolve α) : Resolve α := do
  beginScope
  setAll names
  let result ← body
  endScope
  return result

/-- Runs inside a new scope, unless there is no need for one. -/
def inScopeIf {α : Type} (needed : Bool) (names : List String) (body : Resolve α) : Resolve α :=
  if needed then inScope names body else body

/-- The innermost scope has the name; with no scope, no name is there. -/
def State.innermost? (s : State) (name : String) : Option Bool :=
  s.scopes.items.head?.bind (·.get? name)

/-- Declares a name in the innermost scope, where its value is not set yet. -/
def declare (name : Token) : Resolve Unit := do
  if ((← get).innermost? name.lexeme).isSome then report .alreadyDeclared name
  modify (·.modifyInnermost (·.put name.lexeme false))

/-- Marks the value of a name in the innermost scope as set. -/
def define (name : Token) : Resolve Unit :=
  modify (·.modifyInnermost (·.put name.lexeme true))

/-- The number of scopes between a place and the declaration of a name. -/
def depthOf? (scopes : List Declared) (name : String) : Option Nat :=
  scopes.findIdx? (·.contains name)

/-- Looks for the declaration of a name and keeps what was found. -/
def locate (occurrence : Occurrence) (name : Token) : Resolve (Option Nat) := do
  let depth := depthOf? (← get).scopes.items name.lexeme
  if let some d := depth then
    modify fun s => { s with resolutions := s.resolutions.push ⟨occurrence, name, d⟩ }
  return depth

/-- Runs the body of a function of the given kind. -/
def inFunction {α : Type} (context : FunctionContext) (body : Resolve α) : Resolve α := do
  let enclosing := (← get).function
  modify fun s => { s with function := context }
  let result ← body
  modify fun s => { s with function := enclosing }
  return result

/-- From here on in a class body of the given kind. -/
def setClass (context : ClassContext) : Resolve Unit := modify fun s => { s with classBody := context }

end LoxLang.Scope
