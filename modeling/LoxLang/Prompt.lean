import LoxLang.Session

/-!
# The prompt

Reads a program line by line. Lines are kept until no brace, parenthesis or string is open, and then run together.
Characters are counted as they stand: comments are not left out.
-/

namespace LoxLang

/-- What is open at the end of the lines so far. -/
structure Balance where
  braces : Nat
  parens : Nat
  inString : Bool
  deriving Repr, DecidableEq

namespace Balance

def none : Balance := ⟨0, 0, false⟩

def isClosed (b : Balance) : Bool := b.braces = 0 && b.parens = 0 && !b.inString

/-- Takes one more character. A mark that closes nothing is ignored. -/
def feed (b : Balance) (c : Char) : Balance :=
  if c = stringMark then { b with inString := !b.inString }
  else if b.inString then b
  else if c = '\x7b' then { b with braces := b.braces + 1 }
  else if c = '\x7d' then { b with braces := b.braces - 1 }
  else if c = '(' then { b with parens := b.parens + 1 }
  else if c = ')' then { b with parens := b.parens - 1 }
  else b

def feedLine (b : Balance) (line : String) : Balance := line.toList.foldl feed b

end Balance

/-- What the user does at the prompt. -/
inductive PromptInput where
  | line (text : String)
  | interrupt
  | endOfInput

/-- The state of the prompt: the lines that are not run yet, and what is open in them. -/
structure Prompt where
  session : Session
  pending : List String
  balance : Balance
  finished : Bool

namespace Prompt

/-- The lines printed before the first prompt. -/
def greeting : List String :=
  ["Lox REPL - Type 'exit()' to quit",
   "Enter your code. For multi-line input, press Enter after an opening brace."]

/-- The line printed at the end. -/
def farewell : String := "\nExiting Lox REPL."

/-- The line printed when the user interrupts. -/
def interrupted : String := "\nKeyboardInterrupt"

/-- What ends the session. -/
def exitCommand : String := "exit()"

/-- A prompt on a session, after the greeting. -/
def start (session : Session) : Prompt := ⟨session.printAll greeting, [], .none, false⟩

/-- The text in front of the next line. -/
def text (p : Prompt) : String := if p.pending.isEmpty then ">>> " else "... "

/-- The text without blanks at its ends. -/
def trimmed (text : String) : String := String.ofList (Text.trimBy Text.isBlank text.toList)

/-- Nothing is pending any more. -/
def clear (p : Prompt) : Prompt := { p with pending := [], balance := .none }

/-- After an entry has been run, what came out of it is printed; what was reported is forgotten. -/
def settle (p : Prompt) (result : Session × Option Escape) : Prompt :=
  let session :=
    match result.2 with
    | some e => result.1.printAll (failureLines e.message)
    | none => result.1
  { p with session := session.reset }

/-- Runs an entry. -/
def submit (p : Prompt) (fuel : Nat) (diagrams : Bool) (source : String) : Prompt :=
  p.settle (p.session.run fuel diagrams source)

/-- Takes a line into the entry at hand, and runs the entry if it is complete and not blank. -/
def takeLine (p : Prompt) (fuel : Nat) (diagrams : Bool) (line : String) : Prompt :=
  let p := { p with pending := p.pending ++ [line], balance := p.balance.feedLine line }
  if p.balance.isClosed then
    let source := trimmed ("\n".intercalate p.pending)
    (if source.isEmpty then p else p.submit fuel diagrams source).clear
  else p

def finish (p : Prompt) : Prompt := { p with session := p.session.printAll [farewell], finished := true }

/-- Does what the user wants. Blank lines before an entry are skipped. -/
def step (p : Prompt) (fuel : Nat) (diagrams : Bool) : PromptInput → Prompt
  | .endOfInput => p.finish
  | .interrupt => { p.clear with session := p.session.printAll [interrupted] }
  | .line line =>
    if trimmed line = exitCommand then p.finish
    else if p.pending.isEmpty && (trimmed line).isEmpty then p
    else p.takeLine fuel diagrams line

/-- One turn at the prompt: the text in front of the line, if a line was asked for, and what is printed after it. -/
structure Turn where
  prompt : Option String
  printed : List String

/-- Takes what has been printed into a turn. -/
def turn (p : Prompt) (prompt : Option String) : Turn × Prompt :=
  let (printed, session) := p.session.takePrinted
  (⟨prompt, printed⟩, { p with session })

end Prompt
end LoxLang
