import LoxLang.Evaluation.Step
import LoxLang.Grammar.Statement
import LoxLang.Scan
import LoxLang.Scope.Resolution
import LoxLang.Syntax.Diagram

/-!
# Sessions

A session runs sources one after another on one machine. A source with errors is reported and not run. What a source
prints is added to the lines of the machine.
-/

namespace LoxLang

/-- The built-in functions and the global names they are bound to, in order. -/
def builtinNames : List (String × Builtin) :=
  [("clock", .clock), ("Array", .array), ("max", .max), ("min", .min), ("sum", .sum), ("randomrange", .randomRange),
   ("abs", .abs), ("random", .random), ("exp", .exp), ("log", .log), ("sqrt", .sqrt), ("floor", .floor),
   ("ceil", .ceil), ("sin", .sin), ("cos", .cos), ("tanh", .tanh)]

/-- All built-in functions. No name is bound to the power at the start. -/
def builtins : List Builtin := builtinNames.map (·.2) ++ [.pow]

/-- The built-in function of a type. -/
def Builtin.ofTypeName? (typeName : String) : Option Builtin :=
  builtins.find? fun b => (Value.builtin b).typeName = typeName

/-- A machine on which only the built-in functions are defined. -/
def Machine.start (clock dice : Readings) : Machine :=
  let globals := Bindings.empty.putAll (builtinNames.map fun (name, b) => (name, .builtin b))
  { Machine.blank clock dice with frames := #[globals] }

/-- The value is what a name is bound to at the start. -/
def isBuiltinBinding (name : String) (value : Value) : Bool :=
  match value with
  | .builtin b => builtinNames.contains (name, b)
  | _ => false

/-- The global names, without those that are bound to what they are bound to at the start. -/
def Machine.globals (m : Machine) : List (String × Value) :=
  (m.frame 0).entries.filter fun (name, value) => !isBuiltinBinding name value

/-- The variables in sight that are not global, from the innermost frame on. -/
def Machine.locals (m : Machine) : List (Bindings Value) := (m.scope.takeWhile (· ≠ 0)).map m.frame

/-- Adds printed lines. -/
def Machine.printAll (m : Machine) (lines : List String) : Machine :=
  { m with printed := m.printed ++ lines.toArray }

/-- Runs a computation on the machine, and keeps how it ended if not with a value. -/
def Machine.perform (m : Machine) (body : Eval Unit) : Machine × Option Ending :=
  match body.run m with
  | .ok _ m => (m, none)
  | .error ending m => (m, some ending)

/-- Runs the statements of a program. An error of the program is printed and ends it; any other ending is kept. -/
def Machine.interpret (m : Machine) (fuel : Nat) (program : List Stmt) : Machine × Option Ending :=
  match m.perform (Eval.runAll (Eval.execute fuel) program) with
  | (m, some (.failed error)) => (m.printAll [error.message], none)
  | result => result

/-- What can come out of running a source, instead of its end. -/
inductive Escape where
  | scan (fault : ScanFault)
  | parse (stop : Grammar.Stop)
  | scope (fault : Scope.Fault)
  | ending (ending : Ending)

/-- The message of what came out. -/
def Escape.message : Escape → String
  | scan fault => fault.message
  | parse stop => stop.message
  | scope fault => fault.message
  | ending e => e.message

/-- A machine, and what has been reported about the sources. -/
structure Session where
  machine : Machine
  journal : Journal

namespace Session

def start (machine : Machine) : Session := ⟨machine, .empty⟩

/-- Forgets what has been reported. -/
def reset (s : Session) : Session := { s with journal := .empty }

def printAll (s : Session) (lines : List String) : Session := { s with machine := s.machine.printAll lines }

/-- Prints all that has been reported. -/
def printReports (s : Session) : Session := s.printAll s.journal.lines

def addReports (s : Session) (reports : List Report) : Session := { s with journal := s.journal.addAll reports }

/-- Adds complaints and prints what is announced. -/
def addComplaints (s : Session) (complaints : List Complaint) : Session :=
  let (journal, lines) := s.journal.complainAll complaints
  { s.printAll lines with journal := journal }

/-- Reports what was found about the names of a program, and runs it if nothing has been reported. -/
def finish (s : Session) (found : Scope.State) (interpret : Machine → Machine × Option Ending) :
    Session × Option Escape :=
  let s := s.addReports found.reports
  if s.journal.hasErrors then (s.printReports, none)
  else
    let (machine, ending) := interpret s.machine
    ({ s with machine := machine }, ending.map .ending)

/-- Resolves a program and runs it, if nothing has been reported. -/
def runProgram (s : Session) (fuel : Nat) (program : List Stmt) : Session × Option Escape :=
  match (Scope.resolveStmts program).run (.start []) with
  | .error fault found => (s.addReports found.reports, some (.scope fault))
  | .ok program found => s.finish found (·.interpret fuel program)

/-- Reads a source, and draws a diagram of every statement if that is wanted. There is no program if something has been
reported. -/
def read (s : Session) (diagrams : Bool) (source : String) : Session × Except (Option Escape) (List Stmt) :=
  let scanned := scan source
  let s := s.addReports scanned.reports
  match scanned.fault with
  | some fault => (s, .error (some (.scan fault)))
  | none =>
    let parsed := parseProgram scanned.tokens
    let s := s.addComplaints parsed.complaints
    match parsed.result with
    | .error stop => (s, .error (some (.parse stop)))
    | .ok program =>
      if s.journal.hasErrors then (s.printReports, .error none)
      else
        let drawn := if diagrams then (List.range program.length).map Diagram.savedLine else []
        (s.printAll drawn, .ok program)

/-- Runs a source: reads it and runs the program. -/
def run (s : Session) (fuel : Nat) (diagrams : Bool) (source : String) : Session × Option Escape :=
  match s.read diagrams source with
  | (s, .error escape) => (s, escape)
  | (s, .ok program) => s.runProgram fuel program

/-- Does a computation on the machine. -/
def perform {α : Type} (s : Session) (body : Eval α) : Session × Except Escape α :=
  match body.run s.machine with
  | .ok value m => ({ s with machine := m }, .ok value)
  | .error e m => ({ s with machine := m }, .error (.ending e))

/-- Resolves a tree, then goes on with what it becomes. What is reported does not stop it. -/
def resolving {α β : Type} (s : Session) (tree : Scope.Resolve α) (next : Session → α → Session × Except Escape β) :
    Session × Except Escape β :=
  match tree.run (.start []) with
  | .ok tree found => next (s.addReports found.reports) tree
  | .error fault found => (s.addReports found.reports, .error (.scope fault))

def evaluate (s : Session) (fuel : Nat) (e : Expr) : Session × Except Escape Value := s.perform (Eval.evaluate fuel e)

def execute (s : Session) (fuel : Nat) (stmt : Stmt) : Session × Except Escape Unit :=
  s.perform (Eval.execute fuel stmt)

def resolveAndEvaluate (s : Session) (fuel : Nat) (e : Expr) : Session × Except Escape Value :=
  s.resolving (Scope.resolveExpr e) fun s e => s.evaluate fuel e

def resolveAndExecute (s : Session) (fuel : Nat) (stmt : Stmt) : Session × Except Escape Unit :=
  s.resolving (Scope.resolveStmt stmt) fun s stmt => s.execute fuel stmt

/-- Evaluates the expression at the start of a text. What follows it is ignored. -/
def evaluateText (s : Session) (fuel : Nat) (text : String) : Session × Except Escape Value :=
  let scanned := scan text
  let s := s.addReports scanned.reports
  match scanned.fault with
  | some fault => (s, .error (.scan fault))
  | none =>
    let parsed := parseExpression scanned.tokens
    let s := s.addComplaints parsed.complaints
    match parsed.result with
    | .error stop => (s, .error (.parse stop))
    | .ok e => s.resolveAndEvaluate fuel e

/-- What has been printed, and the session without it. -/
def takePrinted (s : Session) : List String × Session :=
  (s.machine.printed.toList, { s with machine := { s.machine with printed := #[] } })

end Session
end LoxLang
