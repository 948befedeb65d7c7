import LoxLang.Grammar.Expression

/-!
# Reading statements and declarations

A declaration that cannot be read is dropped, and reading goes on where the next one seems to begin. As for
expressions, every reader takes a bound on the number of tokens left.
-/

namespace LoxLang.Grammar

/-- The kinds of tokens at which reading goes on after an error. -/
def restartKinds : List TokenKind :=
  [.kwClass, .kwFunction, .kwVar, .kwFor, .kwIf, .kwWhile, .kwPrint, .kwReturn]

/-- The tokens from which reading goes on, after the token `last` has been dropped: behind a semicolon, at a token that
begins a statement, or at the end of the source. -/
def restart (last : Token) : List Token → List Token
  | [] => []
  | t :: rest =>
    if t.kind = .endOfFile || last.kind = .semicolon || t.kind ∈ restartKinds then t :: rest
    else restart t rest

/-- Drops the tokens of a declaration that could not be read. At least one token is dropped before the end. -/
def recover : Reader Unit := fun s =>
  match s.rest with
  | [] => .error .noTokens s
  | t :: rest =>
    if t.kind = .endOfFile then .ok () s
    else
      match restart t rest with
      | [] => .error .noTokens { s with rest := [] }
      | kept => .ok () { s with rest := kept }

/-- The declaration, or nothing if it could not be read. -/
def orRecover {α : Type} (reader : Reader α) : Reader (Option α) :=
  tryCatch (some <$> reader) fun stop =>
    match stop with
    | .reported .. => do
      recover
      return none
    | .noTokens => throw stop

/-- The statements of a block after its opening brace. -/
def block (decl : Reader (Option Stmt)) (n : Nat) : Reader (List Stmt) := do
  let items ← untilBrace decl n
  let _ ← expect .rightBrace .blockClosing
  return items.filterMap id

/-- Parameters between commas; `count` have been read. -/
def parameters : Nat → Nat → Reader (List Token)
  | 0, _ => noTokens
  | n + 1, count => do
    if maxArguments ≤ count then note .tooManyParameters (← peek)
    let name ← expect .identifier .parameterName
    match ← take? .comma with
    | none => return [name]
    | some _ => return name :: (← parameters n (count + 1))

/-- The parameter list of a function. A method without one is a getter. -/
def parameterList (kind : FunctionKind) (n : Nat) : Reader (Option (List Token)) := do
  if kind = .method && !(← nextIs .leftParen) then return none
  else
    let _ ← expect .leftParen (.parametersOpening kind)
    let names ← if ← nextIs .rightParen then pure [] else parameters n 0
    let _ ← expect .rightParen .parametersClosing
    return some names

/-- A function from its name on. -/
def function (kind : FunctionKind) (decl : Reader (Option Stmt)) (n : Nat) : Reader FunDecl := do
  let name ← expect .identifier (.functionName kind)
  let params ← parameterList kind n
  let _ ← expect .leftBrace (.bodyOpening kind)
  let body ← block decl n
  return ⟨name, params, body⟩

/-- The traits that a class or a trait includes. -/
def withClause (n : Nat) : Reader (List NameRef) := do
  match ← take? .kwWith with
  | none => return []
  | some _ => commaSeparated (return ⟨← expect .identifier .traitName, none⟩) n

/-- A method in the body of a class, and whether it is a method of the class itself. -/
def classMember (decl : Reader (Option Stmt)) (n : Nat) : Reader (Bool × FunDecl) := do
  let own ← take? .kwClass
  return (own.isSome, ← function .method decl n)

def superclassClause : Reader (Option NameRef) := do
  match ← take? .less with
  | none => return none
  | some _ => return some ⟨← expect .identifier .superclassName, none⟩

/-- A class from its name on. -/
def classDeclaration (decl : Reader (Option Stmt)) (n : Nat) : Reader ClassDecl := do
  let name ← expect .identifier .className
  let superclass ← superclassClause
  let traits ← withClause n
  let _ ← expect .leftBrace .classOpening
  let members ← untilBrace (classMember decl n) n
  let _ ← expect .rightBrace .classClosing
  return {
    name, superclass, traits
    methods := (members.filter fun m => !m.1).map Prod.snd
    classMethods := (members.filter fun m => m.1).map Prod.snd }

/-- A trait from its name on. -/
def traitDeclaration (decl : Reader (Option Stmt)) (n : Nat) : Reader TraitDecl := do
  let name ← expect .identifier .traitName
  let traits ← withClause n
  let _ ← expect .leftBrace .traitOpening
  let methods ← untilBrace (function .method decl n) n
  let _ ← expect .rightBrace .traitClosing
  return { name, traits, methods }

/-- A variable from its name on. Without an initializer it is set to nil. -/
def varDeclaration (n : Nat) : Reader Stmt := do
  let name ← expect .identifier .variableName
  let value ←
    match ← take? .equal with
    | some _ => expression n
    | none => pure (.literal .nil)
  let _ ← expect .semicolon .variableEnd
  return .var name (some value)

/-- An expression as a statement. -/
def expressionStatement (n : Nat) : Reader Stmt := do
  let value ← expression n
  let _ ← expect .semicolon .expressionEnd
  return .expression value

/-- An expression, unless the next token is of the kind. -/
def unlessNext (kind : TokenKind) (n : Nat) : Reader (Option Expr) := do
  if ← nextIs kind then return none else return some (← expression n)

def returnStatement (keyword : Token) (n : Nat) : Reader Stmt := do
  let value ← unlessNext .semicolon n
  let _ ← expect .semicolon .returnEnd
  return .returnValue keyword value

def printStatement (n : Nat) : Reader Stmt := do
  let value ← expression n
  let _ ← expect .semicolon .printEnd
  return .print value

def ifStatement (nested : Reader Stmt) (n : Nat) : Reader Stmt := do
  let _ ← expect .leftParen .ifOpening
  let condition ← expression n
  let _ ← expect .rightParen .ifClosing
  let thenBranch ← nested
  match ← take? .kwElse with
  | none => return .ifElse condition thenBranch none
  | some _ => return .ifElse condition thenBranch (some (← nested))

def whileStatement (nested : Reader Stmt) (n : Nat) : Reader Stmt := do
  let _ ← expect .leftParen .whileOpening
  let condition ← expression n
  let _ ← expect .rightParen .whileClosing
  return .whileLoop condition (← nested)

/-- What comes before the first semicolon of a `for` loop. -/
def forInitializer (n : Nat) : Reader (Option Stmt) := do
  match ← takeAny? [.semicolon, .kwVar] with
  | some token =>
    if token.kind = .semicolon then return none else return some (← varDeclaration n)
  | none => return some (← expressionStatement n)

/-- A `for` loop is a `while` loop: the increment follows the body, and the initializer comes before the loop. -/
def forLoop (initializer : Option Stmt) (condition increment : Option Expr) (body : Stmt) : Stmt :=
  let step :=
    match increment with
    | none => body
    | some value => .block [body, .expression value]
  let loop := .whileLoop (condition.getD (.literal (.bool true))) step
  match initializer with
  | none => loop
  | some first => .block [first, loop]

def forStatement (nested : Reader Stmt) (n : Nat) : Reader Stmt := do
  let _ ← expect .leftParen .forOpening
  let initializer ← forInitializer n
  let condition ← unlessNext .semicolon n
  let _ ← expect .semicolon .loopConditionEnd
  let increment ← unlessNext .rightParen n
  let _ ← expect .rightParen .forClosing
  return forLoop initializer condition increment (← nested)

/-- The kinds of tokens that begin a statement other than an expression. -/
def statementKinds : List TokenKind :=
  [.kwIf, .kwFor, .kwPrint, .kwReturn, .kwWhile, .kwBreak, .leftBrace]

/-- A statement, given readers for the statements and the declarations inside it. -/
def statementWith (nested : Reader Stmt) (decl : Reader (Option Stmt)) (n : Nat) : Reader Stmt := do
  match ← takeAny? statementKinds with
  | none => expressionStatement n
  | some token =>
    match token.kind with
    | .kwIf => ifStatement nested n
    | .kwFor => forStatement nested n
    | .kwPrint => printStatement n
    | .kwReturn => returnStatement token n
    | .kwWhile => whileStatement nested n
    | .kwBreak =>
      let _ ← expect .semicolon .breakEnd
      return .breakLoop
    | _ => return .block (← block decl n)

/-- The kinds of tokens that begin a declaration. -/
def declarationKinds : List TokenKind := [.kwClass, .kwTrait, .kwFun, .kwVar]

/-- A declaration or a statement, given readers for the statements and the declarations inside it. -/
def declarationWith (nested : Reader Stmt) (decl : Reader (Option Stmt)) (n : Nat) : Reader Stmt := do
  match ← takeAny? declarationKinds with
  | none => statementWith nested decl n
  | some token =>
    match token.kind with
    | .kwClass => return .classDef (← classDeclaration decl n)
    | .kwTrait => return .traitDef (← traitDeclaration decl n)
    | .kwFun => return .function (← function .function decl n)
    | _ => varDeclaration n

mutual

/-- A statement, for a bound that is at least the number of tokens left. -/
def statement : Nat → Reader Stmt
  | 0 => noTokens
  | n + 1 => statementWith (statement n) (declaration n) (n + 1)

/-- A declaration or a statement, or nothing if it could not be read; for a bound that is at least the number of tokens
left. -/
def declaration : Nat → Reader (Option Stmt)
  | 0 => noTokens
  | n + 1 => orRecover (declarationWith (statement n) (declaration n) (n + 1))

end

/-- Declarations up to the end of the source. -/
def declarations : Nat → Reader (List Stmt)
  | 0 => noTokens
  | n + 1 => do
    if ← atEnd then return []
    else
      match ← declaration (n + 1) with
      | none => declarations n
      | some decl => return decl :: (← declarations n)

end LoxLang.Grammar

namespace LoxLang

/-- What came of reading a list of tokens: statements, or the reason why reading stopped; and the complaints. -/
structure Parse (α : Type) where
  result : Except Grammar.Stop α
  complaints : List Complaint

/-- Runs a reader on a list of tokens. -/
def Grammar.Reader.parse {α : Type} (reader : Grammar.Reader α) (tokens : List Token) : Parse α :=
  match reader.run ⟨tokens, []⟩ with
  | .ok value s => ⟨.ok value, s.complaints⟩
  | .error stop s => ⟨.error stop, s.complaints⟩

/-- Reads the statements of a program. -/
def parseProgram (tokens : List Token) : Parse (List Stmt) :=
  (Grammar.declarations tokens.length).parse tokens

/-- Reads the expression at the front of a list of tokens. -/
def parseExpression (tokens : List Token) : Parse Expr :=
  (Grammar.expression tokens.length).parse tokens

end LoxLang
