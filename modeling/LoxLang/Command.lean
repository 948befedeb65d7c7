import LoxLang.Prompt
import LoxLang.Text.Utf8

/-!
# The command line

What the arguments ask for, and running a script from a file, with the exit code that tells how it went.
-/

namespace LoxLang

/-- What the arguments ask for. -/
inductive Command where
  | prompt (diagrams : Bool)
  | script (path : String) (diagrams : Bool)
  | usage

namespace Command

def diagramOption : String := "-ast"

/-- The command that arguments stand for. Only the first diagram option is taken out of them. -/
def ofArguments (args : List String) : Command :=
  let diagrams := args.contains diagramOption
  match args.erase diagramOption with
  | [] => .prompt diagrams
  | [path] => .script path diagrams
  | _ => .usage

/-- The line printed when the arguments make no sense. -/
def usageLine : String := "Usage: lox.py [-ast] [script]"

def promptLine : String := "Lox REPL"

end Command

/-- Exit codes. -/
inductive ExitCode where
  | success
  | usage
  | badData
  | noInput
  | software
  deriving Repr, DecidableEq

def ExitCode.number : ExitCode → Nat
  | success => 0
  | usage => 64
  | badData => 65
  | noInput => 66
  | software => 70

/-- A path as it is shown: without empty and `.` steps. -/
def shownPath (path : String) : String :=
  let root :=
    if path.startsWith "//" && !path.startsWith "///" then "//"
    else if path.startsWith "/" then "/"
    else ""
  let steps := (path.splitOn "/").filter fun step => step ≠ "" && step ≠ "."
  let shown := root ++ "/".intercalate steps
  if shown.isEmpty then "." else shown

/-- What is found under a path. -/
inductive FileContent where
  | missing
  | directory
  | bytes (content : List UInt8)

/-- What a directory with the given files holds under a path. -/
def findFile (files : List (String × List UInt8)) (path : String) : FileContent :=
  let path := shownPath path
  match files.find? (shownPath ·.1 = path) with
  | some (_, content) => .bytes content
  | none =>
    if [".", "..", "/"].contains path || files.any (·.1.startsWith (path ++ "/")) then .directory else .missing

/-- Runs a script. Every line it prints is added to the session. -/
def Session.runFile (s : Session) (fuel : Nat) (diagrams : Bool) (path : String) (content : FileContent) :
    Session × ExitCode :=
  let failWith (s : Session) (message : String) : Session × ExitCode :=
    (s.printAll (failureLines message), .software)
  match content with
  | .missing => (s.printAll ["Error: File '" ++ shownPath path ++ "' not found."], .noInput)
  | .directory => failWith s ("[Errno 21] Is a directory: " ++ Text.quoted (shownPath path))
  | .bytes content =>
    match Text.decodeUtf8 content with
    | .error e => failWith s e.message
    | .ok text =>
      let (s, escape) := s.run fuel diagrams (String.ofList (Text.unifyNewlines text))
      match escape with
      | some e => failWith s e.message
      | none => (s, if s.journal.hasErrors then .badData else .success)

end LoxLang
