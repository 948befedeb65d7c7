import LoxLang.Evaluation.Declarations

/-!
# Evaluation

One layer of evaluation is given evaluators for the parts of an expression or a statement. `evaluate` and `execute`
close the layers, and count them: a program that needs more layers than it is given runs out of fuel.
-/

namespace LoxLang

/-- Evaluators for the parts of an expression or a statement, and the number of layers that are left. -/
structure Parts where
  fuel : Nat
  eval : Expr → Eval Value
  exec : Stmt → Eval Unit

namespace Eval

def evalAll (eval : Expr → Eval Value) : List Expr → Eval (List Value)
  | [] => return []
  | e :: rest => do
    let value ← eval e
    return value :: (← evalAll eval rest)

/-- Binds a name anew: in the scope that declares it, or in the global one. -/
def assignName (name : Token) (depth : Option Nat) (value : Value) : Eval Unit := do
  match depth with
  | some d => assignAt (← scope) d name.lexeme value
  | none => assignNamed globalFrames name value

/-- Evaluates an expression, given evaluators for its parts. -/
def evalStep (parts : Parts) : Expr → Eval Value
  | .binary left operator right => do
    let left ← parts.eval left
    let right ← parts.eval right
    ofExcept (applyBinary operator left right)
  | .logical left operator right => do
    let left ← parts.eval left
    if decidesAlone operator left then return left else parts.eval right
  | .unary operator operand => do
    let operand ← parts.eval operand
    ofExcept (applyUnary operator operand)
  | .conditional condition thenBranch elseBranch => do
    if (← parts.eval condition).isTruthy then parts.eval thenBranch else parts.eval elseBranch
  | .grouping inner => parts.eval inner
  | .literal value => return .ofLiteral value
  | .var name depth => readName name depth
  | .assign name value depth => do
    let value ← parts.eval value
    assignName name depth value
    return value
  | .call callee paren arguments => do
    let callee ← parts.eval callee
    let args ← evalAll parts.eval arguments
    checkedCall parts.exec paren callee args
  | .get object name => do
    let object ← parts.eval object
    getProperty parts.exec object name
  | .set object name value => do
    let object ← parts.eval object
    checkHasFields object name
    let value ← parts.eval value
    setProperty object name value
    return value
  | .this keyword depth => readName keyword depth
  | .super _ method depth => readSuper method depth
  | .missing => return .nil

/-- Repeats a body while a test holds, at most a number of times. Only a break in the body ends the loop quietly. -/
def repeatWhile (test : Eval Bool) (body : Eval Unit) : Nat → Eval Unit
  | 0, m => .error .outOfFuel m
  | n + 1, m =>
    match test m with
    | .error ending m => .error ending m
    | .ok false m => .ok () m
    | .ok true m =>
      match body m with
      | .ok _ m => repeatWhile test body n m
      | .error .broke m => .ok () m
      | .error ending m => .error ending m

/-- The value of an expression that may be left out. -/
def evalOption (eval : Expr → Eval Value) : Option Expr → Eval Value
  | none => return .nil
  | some e => eval e

/-- Executes a statement, given evaluators for its parts. -/
def execStep (parts : Parts) : Stmt → Eval Unit
  | .expression value => discard (parts.eval value)
  | .print value => do
    let value ← parts.eval value
    printLine (← text value)
  | .var name initializer => do
    let value ← evalOption parts.eval initializer
    define name.lexeme value
  | .block body => do
    let id ← newFrame .empty
    within (id :: (← scope)) (runAll parts.exec body)
  | .ifElse condition thenBranch elseBranch => do
    if (← parts.eval condition).isTruthy then parts.exec thenBranch
    else
      match elseBranch with
      | none => return ()
      | some elseBranch => parts.exec elseBranch
  | .whileLoop condition body =>
    repeatWhile (return (← parts.eval condition).isTruthy) (parts.exec body) parts.fuel
  | .breakLoop => throw .broke
  | .returnValue _ value => do
    let value ← evalOption parts.eval value
    throw (.returned value)
  | .function decl => do
    let f ← makeClosure decl false
    define decl.name.lexeme (.function f)
  | .classDef decl => declareClass decl
  | .traitDef decl => declareTrait decl
  | .missing => crash .missingStatement

mutual

/-- Evaluates an expression within a number of layers. -/
def evaluate : Nat → Expr → Eval Value
  | 0, _ => throw .outOfFuel
  | n + 1, e => evalStep ⟨n, evaluate n, execute n⟩ e

/-- Executes a statement within a number of layers. -/
def execute : Nat → Stmt → Eval Unit
  | 0, _ => throw .outOfFuel
  | n + 1, s => execStep ⟨n, evaluate n, execute n⟩ s

end

end Eval
end LoxLang
