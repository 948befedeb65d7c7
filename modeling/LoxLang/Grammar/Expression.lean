import LoxLang.Grammar.Basic

/-!
# Reading expressions

From loosest to tightest: conditional, assignment, or, and, equality, comparison, term, factor, unary, call, primary.
Every reader takes a bound on the number of tokens left; a nested expression begins after at least one token, so its
bound is smaller.
-/

namespace LoxLang.Grammar

/-- Operands joined by operators of the given kinds, grouped to the left. `first` has been read already. -/
def leftGrouped (make : Expr → Token → Expr → Expr) (kinds : List TokenKind) (operand : Reader Expr) :
    Nat → Expr → Reader Expr
  | 0, _ => noTokens
  | n + 1, first => do
    match ← takeAny? kinds with
    | none => return first
    | some operator => leftGrouped make kinds operand n (make first operator (← operand))

/-- An operand and what operators of the given kinds join to it. -/
def layer (make : Expr → Token → Expr → Expr) (kinds : List TokenKind) (n : Nat) (operand : Reader Expr) :
    Reader Expr := do
  leftGrouped make kinds operand n (← operand)

/-- The arguments of a call after the first, each behind a comma; `count` have been read. -/
def moreArguments (nested : Reader Expr) : Nat → Nat → Reader (List Expr)
  | 0, _ => noTokens
  | n + 1, count => do
    match ← take? .comma with
    | none => return []
    | some _ =>
      if maxArguments ≤ count then complain .tooManyArguments (← peek)
      let argument ← nested
      return argument :: (← moreArguments nested n (count + 1))

/-- The arguments of a call, up to the parenthesis that closes them. -/
def arguments (nested : Reader Expr) (n : Nat) : Reader (List Expr) := do
  if ← nextIs .rightParen then return []
  else
    let first ← nested
    return first :: (← moreArguments nested n 1)

/-- The calls and property names behind an expression. -/
def suffixes (nested : Reader Expr) : Nat → Expr → Reader Expr
  | 0, _ => noTokens
  | n + 1, object => do
    match ← take? .leftParen with
    | some _ =>
      let values ← arguments nested n
      let paren ← expect .rightParen .argumentsClosing
      suffixes nested n (.call object paren values)
    | none =>
      match ← take? .dot with
      | some _ =>
        let name ← expect .identifier .propertyName
        suffixes nested n (.get object name)
      | none => return object

/-- The kinds of tokens that begin a primary expression. -/
def primaryKinds : List TokenKind :=
  [.kwFalse, .kwTrue, .kwNil, .number, .string, .kwSuper, .kwThis, .identifier, .leftParen]

/-- Literals, names, `this`, `super` with a method, and expressions in parentheses. -/
def primary (nested : Reader Expr) : Reader Expr := do
  match ← takeAny? primaryKinds with
  | none => fail (.expected .expression) (← peek)
  | some token =>
    match token.kind with
    | .kwFalse => return .literal (.bool false)
    | .kwTrue => return .literal (.bool true)
    | .kwNil => return .literal .nil
    | .number | .string => return .literal token.literal
    | .kwSuper =>
      let _ ← expect .dot .superDot
      let method ← expect .identifier .superMethodName
      return .super token method none
    | .kwThis => return .this token none
    | .identifier => return .var token none
    | _ =>
      let inner ← nested
      let _ ← expect .rightParen .groupClosing
      return .grouping inner

/-- Signs before a call. -/
def unary (nested : Reader Expr) : Nat → Reader Expr
  | 0 => noTokens
  | n + 1 => do
    match ← takeAny? [.bang, .minus] with
    | some operator => return .unary operator (← unary nested n)
    | none => suffixes nested (n + 1) (← primary nested)

/-- The layers of operators with two operands. -/
def disjunction (nested : Reader Expr) (n : Nat) : Reader Expr :=
  unary nested n
    |> layer .binary [.slash, .star, .modulo] n
    |> layer .binary [.minus, .plus] n
    |> layer .binary [.greater, .greaterEqual, .less, .lessEqual] n
    |> layer .binary [.bangEqual, .equalEqual] n
    |> layer .logical [.kwAnd] n
    |> layer .logical [.kwOr] n

/-- The assignment of a value to what was read before the equals sign. Only names and properties can be assigned to;
for anything else the value is dropped and the error is reported. -/
def assignTo (target : Expr) (equals : Token) (value : Expr) : Reader Expr :=
  match target with
  | .var name _ => return .assign name value none
  | .get object name => return .set object name value
  | _ => do
    complain .invalidAssignmentTarget equals
    return target

/-- Assignments, grouped to the right. The value is again an assignment, not a conditional. -/
def assignment (nested : Reader Expr) : Nat → Reader Expr
  | 0 => noTokens
  | n + 1 => do
    let target ← disjunction nested (n + 1)
    match ← take? .equal with
    | none => return target
    | some equals => assignTo target equals (← assignment nested n)

/-- A conditional, or what it is made of. -/
def conditional (nested : Reader Expr) (n : Nat) : Reader Expr := do
  let condition ← assignment nested n
  match ← take? .question with
  | none => return condition
  | some _ =>
    let thenBranch ← nested
    let _ ← expect .colon .conditionalColon
    let elseBranch ← nested
    return .conditional condition thenBranch elseBranch

/-- An expression, for a bound that is at least the number of tokens left. -/
def expression : Nat → Reader Expr
  | 0 => noTokens
  | n + 1 => conditional (expression n) (n + 1)

end LoxLang.Grammar
