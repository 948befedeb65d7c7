import LoxLang.Scope.Basic
import LoxLang.Syntax

/-!
# Resolving names

Walks through a program in the order in which its names are declared, finds for every use of a name the scope that
declares it, and reports uses that are never right. The result is the program with the depths filled in.
-/

namespace LoxLang.Scope

/-- A use of a name. Its own initializer cannot read it. -/
def useName (name : Token) : Resolve (Option Nat) := do
  if (← get).innermost? name.lexeme == some false then report .readInOwnInitializer name
  locate .variable_ name

/-- A use of `this`. It is resolved only inside a class or a trait. -/
def useThis (keyword : Token) : Resolve (Option Nat) := do
  if (← get).classBody = .none then
    report .thisOutsideClass keyword
    return none
  else
    locate .this keyword

/-- The error of a use of `super` in a class body, if it is one. -/
def superError? : ClassContext → Option ScopeError
  | .none => some .superOutsideClass
  | .trait => some .superInTrait
  | .plainClass => some .superWithoutSuperclass
  | .subclass => none

/-- A use of `super`. It is resolved wherever it stands. -/
def useSuper (keyword : Token) : Resolve (Option Nat) := do
  if let some error := superError? (← get).classBody then report error keyword
  locate .super keyword

mutual

/-- Resolves an expression. The value of a property assignment comes before the object. -/
def resolveExpr : Expr → Resolve Expr
  | .binary left operator right => do
    let left ← resolveExpr left
    let right ← resolveExpr right
    return .binary left operator right
  | .logical left operator right => do
    let left ← resolveExpr left
    let right ← resolveExpr right
    return .logical left operator right
  | .unary operator operand => do
    let operand ← resolveExpr operand
    return .unary operator operand
  | .conditional condition thenBranch elseBranch => do
    let condition ← resolveExpr condition
    let thenBranch ← resolveExpr thenBranch
    let elseBranch ← resolveExpr elseBranch
    return .conditional condition thenBranch elseBranch
  | .grouping inner => do
    let inner ← resolveExpr inner
    return .grouping inner
  | .literal value => return .literal value
  | .var name _ => return .var name (← useName name)
  | .assign name value _ => do
    let value ← resolveExpr value
    return .assign name value (← locate .assign name)
  | .call callee paren arguments => do
    let callee ← resolveExpr callee
    let arguments ← resolveExprs arguments
    return .call callee paren arguments
  | .get object name => do
    let object ← resolveExpr object
    return .get object name
  | .set object name value => do
    let value ← resolveExpr value
    let object ← resolveExpr object
    return .set object name value
  | .this keyword _ => return .this keyword (← useThis keyword)
  | .super keyword method _ => return .super keyword method (← useSuper keyword)
  | .missing => throw (.unsupported .nil)

def resolveExprs : List Expr → Resolve (List Expr)
  | [] => return []
  | e :: rest => do
    let e ← resolveExpr e
    let rest ← resolveExprs rest
    return e :: rest

end

/-- Resolves an expression that may be left out. -/
def resolveExpr? : Option Expr → Resolve (Option Expr)
  | none => return none
  | some e => return some (← resolveExpr e)

/-- Resolves a name that a declaration refers to. -/
def resolveRef (ref : NameRef) : Resolve NameRef := return ⟨ref.name, ← useName ref.name⟩

/-- Resolves names that a declaration refers to, in order. -/
def resolveRefs : List NameRef → Resolve (List NameRef)
  | [] => return []
  | ref :: rest => do
    let ref ← resolveRef ref
    let rest ← resolveRefs rest
    return ref :: rest

/-- Declares names and sets their values, in order. -/
def declareAll : List Token → Resolve Unit
  | [] => return ()
  | name :: rest => do
    declare name
    define name
    declareAll rest

/-- Resolves the class that a class extends. -/
def resolveSuperclass (name : Token) : Option NameRef → Resolve (Option NameRef)
  | none => return none
  | some base => do
    if name.lexeme = base.name.lexeme then report .inheritsFromItself base.name
    setClass .subclass
    return some (← resolveRef base)

/-- A return from a function of the given kind. -/
def checkReturn (keyword : Token) (hasValue : Bool) : Resolve Unit := do
  if (← get).function = .none then report .returnOutsideFunction keyword
  if hasValue && (← get).function = .initializer then report .valueFromInitializer keyword

/-- The context of a method of instances. -/
def methodContext (name : Token) : FunctionContext :=
  if name.lexeme = initName then .initializer else .method

mutual

/-- Resolves a statement. -/
def resolveStmt : Stmt → Resolve Stmt
  | .expression value => return .expression (← resolveExpr value)
  | .print value => return .print (← resolveExpr value)
  | .var name initializer => do
    declare name
    let initializer ← resolveExpr? initializer
    define name
    return .var name initializer
  | .block body => do
    let body ← inScope [] (resolveStmts body)
    return .block body
  | .ifElse condition thenBranch elseBranch => do
    let condition ← resolveExpr condition
    let thenBranch ← resolveStmt thenBranch
    match elseBranch with
    | none => return .ifElse condition thenBranch none
    | some elseBranch =>
      let elseBranch ← resolveStmt elseBranch
      return .ifElse condition thenBranch (some elseBranch)
  | .whileLoop condition body => do
    let condition ← resolveExpr condition
    let body ← resolveStmt body
    return .whileLoop condition body
  | .breakLoop => return .breakLoop
  | .returnValue keyword value => do
    checkReturn keyword value.isSome
    let value ← resolveExpr? value
    return .returnValue keyword value
  | .function decl => do
    declareAll [decl.name]
    let decl ← resolveFunction .function decl
    return .function decl
  | .classDef decl => do
    let decl ← resolveClass decl
    return .classDef decl
  | .traitDef decl => do
    let decl ← resolveTrait decl
    return .traitDef decl
  | .missing => throw (.unsupported .nil)

def resolveStmts : List Stmt → Resolve (List Stmt)
  | [] => return []
  | s :: rest => do
    let s ← resolveStmt s
    let rest ← resolveStmts rest
    return s :: rest

/-- Resolves a function. Its parameters and its body share a scope. -/
def resolveFunction (context : FunctionContext) : FunDecl → Resolve FunDecl
  | ⟨name, params, body⟩ => do
    let body ← inFunction context do
      inScope [] do
        declareAll (params.getD [])
        resolveStmts body
    return ⟨name, params, body⟩

/-- Resolves the methods of instances of a class. -/
def resolveMethods : List FunDecl → Resolve (List FunDecl)
  | [] => return []
  | method :: rest => do
    let method ← resolveFunction (methodContext method.name) method
    let rest ← resolveMethods rest
    return method :: rest

/-- Resolves the methods of a trait, which are never initializers. -/
def resolveTraitMethods : List FunDecl → Resolve (List FunDecl)
  | [] => return []
  | method :: rest => do
    let method ← resolveFunction .method method
    let rest ← resolveTraitMethods rest
    return method :: rest

/-- Resolves the own methods of a class, each in one more scope with `this`. -/
def resolveClassMethods : List FunDecl → Resolve (List FunDecl)
  | [] => return []
  | method :: rest => do
    let method ← inScope ["this"] (resolveFunction .method method)
    let rest ← resolveClassMethods rest
    return method :: rest

/-- Resolves a class. The traits that it includes are left to be looked up globally. -/
def resolveClass : ClassDecl → Resolve ClassDecl
  | ⟨name, superclass, methods, classMethods, traits⟩ => do
    let enclosing := (← get).classBody
    setClass .plainClass
    declareAll [name]
    let superclass ← resolveSuperclass name superclass
    let (methods, classMethods) ← inScopeIf superclass.isSome ["super"] do
      inScope ["this"] do
        let methods ← resolveMethods methods
        let classMethods ← resolveClassMethods classMethods
        return (methods, classMethods)
    setClass enclosing
    return ⟨name, superclass, methods, classMethods, traits⟩

/-- Resolves a trait. -/
def resolveTrait : TraitDecl → Resolve TraitDecl
  | ⟨name, traits, methods⟩ => do
    declareAll [name]
    let enclosing := (← get).classBody
    setClass .trait
    let traits ← resolveRefs traits
    let methods ← inScope ["this"] (resolveTraitMethods methods)
    setClass enclosing
    return ⟨name, traits, methods⟩

end

/-- What can be given to be resolved: parts of a program, lists of them, or values that are no part of one. -/
inductive Subject where
  | expr (e : Expr)
  | stmt (s : Stmt)
  | value (v : Literal)
  | list (subjects : List Subject)

mutual

/-- Resolves whatever is given. -/
def resolveSubject : Subject → Resolve Unit
  | .expr e => discard (resolveExpr e)
  | .stmt s => discard (resolveStmt s)
  | .value v => throw (.unsupported v)
  | .list subjects => resolveSubjects subjects

def resolveSubjects : List Subject → Resolve Unit
  | [] => return ()
  | subject :: rest => do
    resolveSubject subject
    resolveSubjects rest

end

end LoxLang.Scope
