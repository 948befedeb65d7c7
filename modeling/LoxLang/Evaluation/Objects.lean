import LoxLang.Evaluation.Builtins

/-!
# Calls and properties

Calling functions and classes, and reading and writing the properties of objects. Bodies of functions are run by a
given runner of statements.
-/

namespace LoxLang

/-- The name under which a method finds the object it belongs to. -/
def thisName : String := "this"

/-- The name under which a method finds the class that its class extends. -/
def superName : String := "super"

abbrev Runner := Stmt → Eval Unit

namespace Eval

def runAll (run : Runner) : List Stmt → Eval Unit
  | [] => return ()
  | s :: rest => do
    run s
    runAll run rest

/-- Makes a function with the frames in sight. -/
def makeClosure (decl : FunDecl) (isInitializer : Bool) : Eval Closure :=
  return ⟨← freshId, decl, ← scope, isInitializer⟩

/-- The method of an object: a new function that finds the object under `this`. -/
def bindThis (f : Closure) (receiver : Value) : Eval Closure := do
  let id ← newFrame (Bindings.empty.put thisName receiver)
  return ⟨← freshId, f.decl, id :: f.frames, f.isInitializer⟩

/-- The value of a call: what the body returns, or what stands for a body that ends without returning. -/
def catchReturn (body : Eval Unit) (otherwise : Eval Value) : Eval Value := fun m =>
  match body m with
  | .ok _ m => otherwise m
  | .error (.returned value) m => .ok value m
  | .error ending m => .error ending m

/-- The value of a call whose body ends without returning: the object for an initializer, else nil. -/
def withoutReturn (f : Closure) : Eval Value :=
  if f.isInitializer then getAt f.frames 0 thisName else return .nil

/-- Calls a function. The parameters are bound in a new frame, in which the body runs. -/
def callClosure (run : Runner) (f : Closure) (args : List Value) : Eval Value := do
  let names := (f.decl.params.getD []).map Token.lexeme
  let id ← newFrame (Bindings.empty.putAll (names.zip args))
  catchReturn (within (id :: f.frames) (runAll run f.decl.body)) (withoutReturn f)

/-- Calls a method of an object. A built-in function cannot be bound to one. -/
def callMethod (run : Runner) (method : Method) (receiver : Value) (args : List Value) : Eval Value := do
  match method with
  | .closure f => callClosure run (← bindThis f receiver) args
  | .builtin b => crash (.cannotBind (Value.builtin b).typeName)

/-- Makes an instance of a class and sets it up. -/
def instantiate (run : Runner) (c : Class) (args : List Value) : Eval Value := do
  let object : Value := .object ⟨← newObject, some c⟩
  if let some method := c.findMethod? initName then
    discard (callMethod run method object args)
  return object

end Eval

/-- The number of arguments that a call needs, for what can be called. -/
def Value.arity? : Value → Option Nat
  | .function f => some f.decl.arity
  | .classObject c => some c.arity
  | .builtin b => some b.arity
  | .arrayFunction _ access _ => some access.arity
  | _ => none

namespace Eval

/-- Calls a value, whatever the number of arguments. -/
def callValue (run : Runner) (callee : Value) (args : List Value) : Eval Value :=
  match callee with
  | .function f => callClosure run f args
  | .classObject c => instantiate run c args
  | .builtin b => callBuiltin b args
  | .arrayFunction _ access id => callArrayFunction access id args
  | other => crash (.cannotCall other.typeName)

/-- Calls a value after checking that it can be called with these arguments. -/
def checkedCall (run : Runner) (paren : Token) (callee : Value) (args : List Value) : Eval Value :=
  match callee.arity? with
  | none => fail paren .notCallable
  | some arity =>
    if args.length = arity then callValue run callee args
    else fail paren (.wrongArity arity args.length)

/-- The property of an object: a field, or a method of the class that made it, bound to the object. -/
def readMember (self : Value) (id : Nat) (madeBy : Option Class) (name : Token) : Eval Value := do
  match ((← get).fieldsOf id).get? name.lexeme with
  | some value => return value
  | none =>
    match madeBy.bind (·.findMethod? name.lexeme) with
    | some (.closure f) => return .function (← bindThis f self)
    | some (.builtin b) => return .builtin b
    | none => fail name (.undefinedProperty name.lexeme)

/-- The property of an array: its two functions and its length. -/
def readArrayMember (id : Nat) (name : Token) : Eval Value := do
  if name.lexeme = "get" then return .arrayFunction (← freshId) .get id
  else if name.lexeme = "set" then return .arrayFunction (← freshId) .set id
  else if name.lexeme = "length" then return .number (Float.ofNat ((← get).elements id).size)
  else fail name (.undefinedProperty name.lexeme)

/-- The property of a value, without running getters. -/
def readProperty (value : Value) (name : Token) : Eval Value :=
  match value with
  | .object o => readMember value o.id o.madeBy name
  | .classObject c => readMember value c.id c.metaclass name
  | .array id => readArrayMember id name
  | _ => fail name .noProperties

/-- The property of a value. A getter is run. -/
def getProperty (run : Runner) (value : Value) (name : Token) : Eval Value := do
  match ← readProperty value name with
  | .function f => if f.decl.isGetter then callClosure run f [] else return .function f
  | result => return result

/-- The value can be asked for properties to be set. -/
def checkHasFields (value : Value) (name : Token) : Eval Unit :=
  match value with
  | .object _ | .classObject _ | .array _ => return ()
  | _ => fail name .noFields

def setField (id : Nat) (name : String) (value : Value) : Eval Unit :=
  modify fun m => { m with fields := m.fields.modify id (·.put name value) }

/-- Sets a property of a value that has been checked. -/
def setProperty (object : Value) (name : Token) (value : Value) : Eval Unit :=
  match object with
  | .object o => setField o.id name.lexeme value
  | .classObject c => setField c.id name.lexeme value
  | .array _ => fail name .arrayHasNoFields
  | _ => fail name .noFields

/-- The method of the class that the class of a method extends, bound to the object of that method. It is looked up
from the place where `super` stands, not from the class of the object. -/
def readSuper (method : Token) (depth : Option Nat) : Eval Value := do
  match depth with
  | none => crash .unresolvedSuper
  | some d =>
    let chain ← scope
    let base ← getAt chain d superName
    let receiver ← getAt chain (d - 1) thisName
    match base with
    | .classObject c =>
      match c.findMethod? method.lexeme with
      | some (.closure f) => return .function (← bindThis f receiver)
      | some (.builtin b) => crash (.cannotBind (Value.builtin b).typeName)
      | none => crash (.declaration (.noSuperMethod method.lexeme))
    | other => crash (.superNotClass other.typeName)

end Eval
end LoxLang
