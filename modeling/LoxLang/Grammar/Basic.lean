import LoxLang.Report
import LoxLang.Syntax

/-!
# Reading tokens

A reader takes tokens from the front of a list. It reports what is wrong with them, and gives up a declaration that
cannot be read. Every list of tokens is meant to end with the token for the end of the source; a reader that runs past
the last token of a list without one stops for good.
-/

namespace LoxLang.Grammar

/-- Functions stand by themselves, methods in the body of a class or a trait. -/
inductive FunctionKind where
  | function
  | method
  deriving Repr, DecidableEq

def FunctionKind.text : FunctionKind → String
  | function => "function"
  | method => "method"

/-- What a reader can miss. -/
inductive Missing where
  | className | superclassName | classOpening | classClosing
  | traitName | traitOpening | traitClosing
  | variableName | variableEnd
  | blockClosing
  | printEnd | expressionEnd | returnEnd | breakEnd
  | ifOpening | ifClosing
  | whileOpening | whileClosing
  | forOpening | loopConditionEnd | forClosing
  | functionName (kind : FunctionKind) | parametersOpening (kind : FunctionKind) | parameterName
  | parametersClosing | bodyOpening (kind : FunctionKind)
  | conditionalColon
  | propertyName | argumentsClosing
  | superDot | superMethodName
  | groupClosing
  | expression
  deriving Repr, DecidableEq

def Missing.text : Missing → String
  | className => "class name"
  | superclassName => "superclass name"
  | classOpening => "'\x7b' before class body"
  | classClosing => "'\x7d' after class body"
  | traitName => "trait name"
  | traitOpening => "'\x7b' before trait body"
  | traitClosing => "'\x7d' after trait body"
  | variableName => "variable name"
  | variableEnd => "';' after variable declaration"
  | blockClosing => "'\x7d' after block"
  | printEnd => "';' after value"
  | expressionEnd => "';' after expression"
  | returnEnd => "';' after return value"
  | breakEnd => "';' after 'break'"
  | ifOpening => "'(' after 'if'"
  | ifClosing => "')' after if condition"
  | whileOpening => "'(' after 'while'"
  | whileClosing => "')' after while condition"
  | forOpening => "'(' after 'for'"
  | loopConditionEnd => "';' after loop condition"
  | forClosing => "')' after for clauses"
  | functionName kind => kind.text ++ " name"
  | parametersOpening kind => "'(' after " ++ kind.text ++ " name"
  | parameterName => "parameter name"
  | parametersClosing => "')' after parameters"
  | bodyOpening kind => "'\x7b' before " ++ kind.text ++ " body"
  | conditionalColon => "':' after then branch of conditional expression"
  | propertyName => "property name after '.'"
  | argumentsClosing => "')' after arguments"
  | superDot => "'.' after 'super'"
  | superMethodName => "superclass method name"
  | groupClosing => "')' after expression"
  | expression => "expression"

/-- What is reported about tokens. -/
inductive SyntaxError where
  | expected (what : Missing)
  | invalidAssignmentTarget
  | tooManyArguments
  | tooManyParameters
  deriving Repr, DecidableEq

def SyntaxError.message : SyntaxError → String
  | expected what => "Expect " ++ what.text ++ "."
  | invalidAssignmentTarget => "Invalid assignment target."
  | tooManyArguments => "Cannot have more than 255 arguments."
  | tooManyParameters => "Can't have more than 255 parameters."

/-- Why a reader stops: an error that it has reported, or a list of tokens without an end. -/
inductive Stop where
  | reported (error : SyntaxError) (token : Token)
  | noTokens
  deriving Inhabited

def Stop.message : Stop → String
  | reported error _ => error.message
  | noTokens => "list index out of range"

/-- The tokens that are left, and the complaints made so far. -/
structure State where
  rest : List Token
  complaints : List Complaint
  deriving Inhabited

/-- A reader of tokens. Complaints and tokens taken stay when it stops. -/
abbrev Reader := EStateM Stop State

/-- A call may have this many arguments, and a function this many parameters. -/
def maxArguments : Nat := 255

def peek : Reader Token := fun s =>
  match s.rest with
  | [] => .error .noTokens s
  | t :: _ => .ok t s

/-- The list of tokens has no end. -/
def noTokens {α : Type} : Reader α := throw .noTokens

/-- Reports an error at the line of a token and announces it. -/
def complain (error : SyntaxError) (token : Token) : Reader Unit :=
  modify fun s => { s with complaints := s.complaints ++ [⟨⟨.line token.line, error.message⟩, true⟩] }

/-- Reports an error at a token, without announcing it. -/
def note (error : SyntaxError) (token : Token) : Reader Unit :=
  modify fun s => { s with complaints := s.complaints ++ [⟨⟨.token token, error.message⟩, false⟩] }

def fail {α : Type} (error : SyntaxError) (token : Token) : Reader α := do
  complain error token
  throw (.reported error token)

def nextIs (kind : TokenKind) : Reader Bool := return (← peek).kind = kind

/-- Nothing but the end of the source is left. -/
def atEnd : Reader Bool := nextIs .endOfFile

/-- Takes the next token if it is of one of the kinds. The end of the source is never taken. -/
def takeAny? (kinds : List TokenKind) : Reader (Option Token) := fun s =>
  match s.rest with
  | [] => .error .noTokens s
  | t :: rest => if t.kind ∈ kinds then .ok (some t) { s with rest := rest } else .ok none s

def take? (kind : TokenKind) : Reader (Option Token) := takeAny? [kind]

/-- Takes the next token, which has to be of the kind. -/
def expect (kind : TokenKind) (what : Missing) : Reader Token := do
  match ← take? kind with
  | some token => return token
  | none => fail (.expected what) (← peek)

/-- Reads a list closed by a right brace or the end of the source, and leaves what closes it. The bound `n` is at
least the number of tokens left. -/
def untilBrace {α : Type} (item : Reader α) : Nat → Reader (List α)
  | 0 => noTokens
  | n + 1 => do
    if (← nextIs .rightBrace) || (← atEnd) then return []
    else
      let first ← item
      return first :: (← untilBrace item n)

/-- Reads a list of items between commas. -/
def commaSeparated {α : Type} (item : Reader α) : Nat → Reader (List α)
  | 0 => noTokens
  | n + 1 => do
    let first ← item
    match ← take? .comma with
    | none => return [first]
    | some _ => return first :: (← commaSeparated item n)

end LoxLang.Grammar
