import LoxLang.Failure

/-!
# The machine

The state of a running program: frames with variables, the fields of objects, the elements of arrays, the frames that
are in sight, what has been printed, and the readings of a clock and of a source of random numbers. A computation on the
machine keeps the state that it reached, however it ends.
-/

namespace LoxLang

/-- What is read one after another from the clock or from a source of random numbers. -/
structure Readings where
  value : Nat → Float := fun _ => 0
  /-- The number of readings that have been taken. -/
  taken : Nat := 0
  deriving Inhabited

/-- The next reading, and the readings behind it. -/
def Readings.take (r : Readings) : Float × Readings := (r.value r.taken, { r with taken := r.taken + 1 })

/-- The state of a running program. -/
structure Machine where
  /-- The variables of every frame. The first frame is the global one. -/
  frames : Array (Bindings Value)
  /-- The frames in sight, from the innermost to the global one. -/
  scope : Frames
  /-- The fields of every class and instance. -/
  fields : Array (Bindings Value)
  /-- The elements of every array. -/
  arrays : Array (Array Value)
  /-- The number for the next function, trait or array function. -/
  fresh : Nat
  /-- The lines printed so far. -/
  printed : Array String
  clock : Readings
  /-- The random numbers, from 0 on and below 1. -/
  dice : Readings
  deriving Inhabited

/-- The global frame. -/
def globalFrames : Frames := [0]

namespace Machine

/-- A machine with one empty frame. -/
def blank (clock dice : Readings) : Machine :=
  { frames := #[.empty], scope := globalFrames, fields := #[], arrays := #[], fresh := 0, printed := #[], clock, dice }

def frame (m : Machine) (id : FrameId) : Bindings Value := m.frames[id]?.getD .empty

def bind (m : Machine) (id : FrameId) (name : String) (value : Value) : Machine :=
  { m with frames := m.frames.modify id (·.put name value) }

/-- The nearest frame of a chain that has a name. -/
def findFrame? (m : Machine) (chain : Frames) (name : String) : Option FrameId :=
  chain.find? fun id => (m.frame id).contains name

/-- The value of a name: that of the nearest frame of a chain that has it. -/
def lookup? (m : Machine) (chain : Frames) (name : String) : Option Value :=
  (m.findFrame? chain name).bind fun id => (m.frame id).get? name

def fieldsOf (m : Machine) (id : Nat) : Bindings Value := m.fields[id]?.getD .empty

def elements (m : Machine) (id : Nat) : Array Value := m.arrays[id]?.getD #[]

end Machine

abbrev Eval := EStateM Ending Machine

namespace Eval

def fail {α : Type} (token : Token) (cause : Cause) : Eval α := throw (.error token cause)

def crash {α : Type} (fault : Fault) : Eval α := throw (.crashed fault)

/-- The value, or the ending instead of it. -/
def ofExcept {α : Type} : Except Ending α → Eval α
  | .ok value => pure value
  | .error ending => throw ending

/-- Adds a frame with some variables. -/
def newFrame (bindings : Bindings Value) : Eval FrameId := fun m =>
  .ok m.frames.size { m with frames := m.frames.push bindings }

/-- A number that has not been used for a function, a trait or an array function. -/
def freshId : Eval Nat := fun m => .ok m.fresh { m with fresh := m.fresh + 1 }

/-- The number of a new object without fields. -/
def newObject : Eval Nat := fun m => .ok m.fields.size { m with fields := m.fields.push .empty }

def newArray (elements : Array Value) : Eval Nat := fun m =>
  .ok m.arrays.size { m with arrays := m.arrays.push elements }

def printLine (line : String) : Eval Unit := modify fun m => { m with printed := m.printed.push line }

def scope : Eval Frames := return (← get).scope

/-- From here on other frames are in sight. -/
def setScope (chain : Frames) : Eval Unit := modify fun m => { m with scope := chain }

/-- Runs with other frames in sight; however it ends, the frames in sight are as before. -/
def within {α : Type} (chain : Frames) (body : Eval α) : Eval α := fun m =>
  let saved := m.scope
  match body { m with scope := chain } with
  | .ok value m => .ok value { m with scope := saved }
  | .error ending m => .error ending { m with scope := saved }

/-- Binds a name in the innermost frame in sight. -/
def define (name : String) (value : Value) : Eval Unit := do
  match ← scope with
  | [] => return ()
  | inner :: _ => modify (·.bind inner name value)

/-- The frame a number of steps out along a chain. -/
def ancestor (chain : Frames) (depth : Nat) : Eval FrameId :=
  match chain[depth]? with
  | some id => return id
  | none => crash .scopeTooDeep

/-- The value of a name in the frame a number of steps out; nil if that frame does not have it. -/
def getAt (chain : Frames) (depth : Nat) (name : String) : Eval Value := do
  let id ← ancestor chain depth
  return ((← get).frame id |>.get? name).getD .nil

/-- Binds a name in the frame a number of steps out. -/
def assignAt (chain : Frames) (depth : Nat) (name : String) (value : Value) : Eval Unit := do
  let id ← ancestor chain depth
  modify (·.bind id name value)

/-- The value of a name in the nearest frame that has it. -/
def getNamed (chain : Frames) (name : Token) : Eval Value := do
  match (← get).lookup? chain name.lexeme with
  | some value => return value
  | none => fail name (.undefinedVariable name.lexeme)

/-- Binds a name anew in the nearest frame that has it. -/
def assignNamed (chain : Frames) (name : Token) (value : Value) : Eval Unit := do
  match (← get).findFrame? chain name.lexeme with
  | some id => modify (·.bind id name.lexeme value)
  | none => fail name (.undefinedVariable name.lexeme)

end Eval
end LoxLang
