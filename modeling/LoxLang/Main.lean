import LoxLang.Command

/-!
# The program

Runs a script or the prompt. Files and lines are read here, and everything that is printed is printed here.
-/

namespace LoxLang

/-- The layers of evaluation that a program is given. -/
def layers : Nat := Nat.pow 2 62

def putLines (lines : List String) : IO Unit := lines.forM IO.println

def readContent (path : String) : IO FileContent := do
  try
    return .bytes (← IO.FS.readBinFile path).toList
  catch
    | .noFileOrDirectory .. => return .missing
    | .inappropriateType .. => return .directory
    | e => throw e

/-- The next line, without its end. -/
def nextInput (stdin : IO.FS.Stream) : IO PromptInput := do
  let line ← stdin.getLine
  if line.isEmpty then return .endOfInput
  else return .line (if line.endsWith "\n" then String.ofList line.toList.dropLast else line)

/-- Asks for lines until the session ends. -/
partial def promptLoop (diagrams : Bool) (stdin stdout : IO.FS.Stream) (p : Prompt) : IO Unit := do
  stdout.putStr p.text
  stdout.flush
  let (t, p) := (p.step layers diagrams (← nextInput stdin)).turn (some p.text)
  putLines t.printed
  if p.finished then return ()
  else promptLoop diagrams stdin stdout p

/-- Starts a session. The clock goes on from the time of the start, and the random numbers differ from run to run. -/
def startSession : IO Session := do
  let milliseconds ← IO.monoMsNow
  let seed ← IO.rand 0 (Nat.pow 2 64 - 1)
  let time (n : Nat) := Float.ofNat milliseconds / 1000.0 + 0.0000152587890625 * Float.ofNat n
  let number (n : Nat) := Float.ofNat ((hash (seed, n)).toNat / Nat.pow 2 11) / Float.ofNat (Nat.pow 2 53)
  return .start (.start { value := time } { value := number })

/-- Does what the arguments ask for. -/
def runCommand (args : List String) : IO ExitCode := do
  let s ← startSession
  match Command.ofArguments args with
  | .usage =>
    putLines [Command.usageLine]
    return .usage
  | .script path diagrams =>
    let (s, code) := s.runFile layers diagrams path (← readContent (shownPath path))
    putLines s.takePrinted.1
    return code
  | .prompt diagrams =>
    let (t, p) := (Prompt.start (s.printAll [Command.promptLine])).turn none
    putLines t.printed
    promptLoop diagrams (← IO.getStdin) (← IO.getStdout) p
    return .success

end LoxLang

def main (args : List String) : IO UInt32 := do
  return (← LoxLang.runCommand args).number.toUInt32
