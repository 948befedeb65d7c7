import LoxLang.Token

/-!
# Syntax trees

Expressions, statements and declarations. An occurrence of a name, of `this` or of `super` carries the number of
scopes between its use and its declaration; it is `none` before scopes are resolved, and stays `none` for a name that
no enclosing local scope declares.
-/

namespace LoxLang

/-- Expressions. -/
inductive Expr where
  | binary (left : Expr) (operator : Token) (right : Expr)
  | logical (left : Expr) (operator : Token) (right : Expr)
  | unary (operator : Token) (operand : Expr)
  | conditional (condition thenBranch elseBranch : Expr)
  | grouping (inner : Expr)
  | literal (value : Literal)
  | var (name : Token) (depth : Option Nat)
  | assign (name : Token) (value : Expr) (depth : Option Nat)
  | call (callee : Expr) (paren : Token) (arguments : List Expr)
  | get (object : Expr) (name : Token)
  | set (object : Expr) (name : Token) (value : Expr)
  | this (keyword : Token) (depth : Option Nat)
  | super (keyword method : Token) (depth : Option Nat)
  /-- The place of an expression that was left out. -/
  | missing
  deriving Inhabited

/-- A name that a declaration refers to: a superclass or a trait. -/
structure NameRef where
  name : Token
  depth : Option Nat
  deriving Inhabited

mutual

/-- Statements and declarations. -/
inductive Stmt where
  | expression (value : Expr)
  | print (value : Expr)
  | var (name : Token) (initializer : Option Expr)
  | block (body : List Stmt)
  | ifElse (condition : Expr) (thenBranch : Stmt) (elseBranch : Option Stmt)
  | whileLoop (condition : Expr) (body : Stmt)
  | breakLoop
  | returnValue (keyword : Token) (value : Option Expr)
  | function (decl : FunDecl)
  | classDef (decl : ClassDecl)
  | traitDef (decl : TraitDecl)
  /-- The place of a statement that was left out. -/
  | missing

/-- A function or a method. A method without a parameter list is a getter. -/
structure FunDecl where
  name : Token
  params : Option (List Token)
  body : List Stmt

/-- A class: the class it extends, the traits it includes, the methods of its instances and its own methods. -/
structure ClassDecl where
  name : Token
  superclass : Option NameRef
  methods : List FunDecl
  classMethods : List FunDecl
  traits : List NameRef

/-- A trait: the traits it includes and its methods. -/
structure TraitDecl where
  name : Token
  traits : List NameRef
  methods : List FunDecl

end

instance : Inhabited Stmt := ⟨.missing⟩

/-- The name of the method that sets up an instance. -/
def initName : String := "init"

namespace FunDecl

/-- The number of arguments a call needs. -/
def arity (f : FunDecl) : Nat := (f.params.getD []).length

/-- Runs when it is read as a property, instead of waiting for a call. -/
def isGetter (f : FunDecl) : Bool := f.params.isNone

end FunDecl
end LoxLang
