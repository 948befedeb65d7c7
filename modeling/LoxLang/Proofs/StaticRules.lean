import LoxLang.Scope.Resolution
import Mathlib.Tactic.MkIffOfInductiveProp

/-!
The rules that resolving checks, each said of one place in a tree: of what stands there and of what stands around it.
-/

namespace LoxLang.Scope

/-! ### Places -/

/-- What a function is to the declaration around it. -/
inductive Role where
  | function
  | method
  /-- A method of a class itself. -/
  | ownMethod
  | traitMethod

/-- What can stand around a place. -/
inductive Enclosure where
  | block
  | initializer (name : Token)
  | function (role : Role) (name : Token)
  | classBody (base : Option NameRef)
  | traitBody

def Enclosure.isFunction : Enclosure → Bool
  | .function .. => true
  | _ => false

/-- The body of a class or of a trait. -/
def Enclosure.isBody : Enclosure → Bool
  | .classBody _ | .traitBody => true
  | _ => false

/-- What can stand at a place. -/
inductive Node where
  | expr (e : Expr)
  | stmt (s : Stmt)
  | function (decl : FunDecl)

/-- A place in a tree, with what stands around it from the innermost on. -/
structure Site where
  around : List Enclosure
  node : Node

variable (around : List Enclosure)

mutual

/-- The places in an expression. -/
def exprSites : Expr → List Site
  | .binary left op right =>
    ⟨around, .expr (.binary left op right)⟩ :: (exprSites left ++ exprSites right)
  | .logical left op right =>
    ⟨around, .expr (.logical left op right)⟩ :: (exprSites left ++ exprSites right)
  | .unary op operand => ⟨around, .expr (.unary op operand)⟩ :: exprSites operand
  | .conditional test yes no =>
    ⟨around, .expr (.conditional test yes no)⟩ :: (exprSites test ++ exprSites yes ++ exprSites no)
  | .grouping inner => ⟨around, .expr (.grouping inner)⟩ :: exprSites inner
  | .literal value => [⟨around, .expr (.literal value)⟩]
  | .var name depth => [⟨around, .expr (.var name depth)⟩]
  | .assign name value depth => ⟨around, .expr (.assign name value depth)⟩ :: exprSites value
  | .call callee paren args =>
    ⟨around, .expr (.call callee paren args)⟩ :: (exprSites callee ++ exprsSites args)
  | .get object name => ⟨around, .expr (.get object name)⟩ :: exprSites object
  | .set object name value => ⟨around, .expr (.set object name value)⟩ :: (exprSites object ++ exprSites value)
  | .this keyword depth => [⟨around, .expr (.this keyword depth)⟩]
  | .super keyword method depth => [⟨around, .expr (.super keyword method depth)⟩]
  | .missing => []

def exprsSites : List Expr → List Site
  | [] => []
  | e :: rest => exprSites e ++ exprsSites rest

end

def optionSites (e : Option Expr) : List Site := (e.map (exprSites around)).getD []

mutual

def stmtSites (around : List Enclosure) : Stmt → List Site
  | .expression value => ⟨around, .stmt (.expression value)⟩ :: exprSites around value
  | .print value => ⟨around, .stmt (.print value)⟩ :: exprSites around value
  | .var name init =>
    ⟨around, .stmt (.var name init)⟩ :: optionSites (.initializer name :: around) init
  | .block body => ⟨around, .stmt (.block body)⟩ :: stmtsSites (.block :: around) body
  | .ifElse test yes none =>
    ⟨around, .stmt (.ifElse test yes none)⟩ :: (exprSites around test ++ stmtSites around yes)
  | .ifElse test yes (some no) =>
    ⟨around, .stmt (.ifElse test yes (some no))⟩ ::
      (exprSites around test ++ stmtSites around yes ++ stmtSites around no)
  | .whileLoop test body =>
    ⟨around, .stmt (.whileLoop test body)⟩ :: (exprSites around test ++ stmtSites around body)
  | .breakLoop => [⟨around, .stmt .breakLoop⟩]
  | .returnValue keyword value => ⟨around, .stmt (.returnValue keyword value)⟩ :: optionSites around value
  | .function decl => ⟨around, .stmt (.function decl)⟩ :: functionSites around .function decl
  | .classDef ⟨name, base, methods, own, traits⟩ =>
    ⟨around, .stmt (.classDef ⟨name, base, methods, own, traits⟩)⟩ ::
      (functionsSites (.classBody base :: around) .method methods ++
        functionsSites (.classBody base :: around) .ownMethod own)
  | .traitDef ⟨name, traits, methods⟩ =>
    ⟨around, .stmt (.traitDef ⟨name, traits, methods⟩)⟩ :: functionsSites (.traitBody :: around) .traitMethod methods
  | .missing => []

def stmtsSites (around : List Enclosure) : List Stmt → List Site
  | [] => []
  | s :: rest => stmtSites around s ++ stmtsSites around rest

def functionSites (around : List Enclosure) (role : Role) : FunDecl → List Site
  | ⟨name, params, body⟩ =>
    ⟨around, .function ⟨name, params, body⟩⟩ :: stmtsSites (.function role name :: around) body

def functionsSites (around : List Enclosure) (role : Role) : List FunDecl → List Site
  | [] => []
  | f :: rest => functionSites around role f ++ functionsSites around role rest

end

/-! ### Rules -/

/-- The name that a statement declares in the scope around it. -/
def declaredNames : Stmt → List Token
  | .var name _ => [name]
  | .function decl => [decl.name]
  | .classDef decl => [decl.name]
  | .traitDef decl => [decl.name]
  | _ => []

/-- The names that are declared in the scope of a node, in order. The parameters of a function are declared in the scope
of its body. -/
def Node.declares : Node → List Token
  | .stmt (.block body) => body.flatMap declaredNames
  | .function decl => decl.params.getD [] ++ decl.body.flatMap declaredNames
  | _ => []

/-- A name is one of some names, or the same as an earlier one of those beside it. -/
def Repeats (seen : List String) (names : List Token) (name : Token) : Prop :=
  ∃ earlier later, names = earlier ++ name :: later ∧ name.lexeme ∈ seen ++ earlier.map Token.lexeme

/-- What stands at a place breaks a rule. The error says which one, and the token where. -/
@[mk_iff]
inductive Site.Offends : Site → ScopeError → Token → Prop
  /-- A return stands in a function. -/
  | returnOutside {keyword : Token} {value : Option Expr} {around : List Enclosure}
    (outside : ∀ e ∈ around, e.isFunction = false) :
    Offends ⟨around, .stmt (.returnValue keyword value)⟩ .returnOutsideFunction keyword
  /-- The method that sets up the instances of a class returns no value. -/
  | initializerValue {keyword name : Token} {value : Expr} {around : List Enclosure}
    (inside : around.find? Enclosure.isFunction = some (.function .method name)) (isInit : name.lexeme = initName) :
    Offends ⟨around, .stmt (.returnValue keyword (some value))⟩ .valueFromInitializer keyword
  /-- `this` stands in a class or a trait. -/
  | thisOutside {keyword : Token} {depth : Option Nat} {around : List Enclosure}
    (outside : ∀ e ∈ around, e.isBody = false) :
    Offends ⟨around, .expr (.this keyword depth)⟩ .thisOutsideClass keyword
  /-- `super` stands in a class that extends another. -/
  | superOutside {keyword method : Token} {depth : Option Nat} {around : List Enclosure}
    (outside : ∀ e ∈ around, e.isBody = false) :
    Offends ⟨around, .expr (.super keyword method depth)⟩ .superOutsideClass keyword
  | superInTrait {keyword method : Token} {depth : Option Nat} {around : List Enclosure}
    (inside : around.find? Enclosure.isBody = some .traitBody) :
    Offends ⟨around, .expr (.super keyword method depth)⟩ .superInTrait keyword
  | superInClass {keyword method : Token} {depth : Option Nat} {around : List Enclosure}
    (inside : around.find? Enclosure.isBody = some (.classBody none)) :
    Offends ⟨around, .expr (.super keyword method depth)⟩ .superWithoutSuperclass keyword
  /-- The initializer of a local variable does not read the variable. -/
  | readInItself {name own : Token} {depth : Option Nat} {outer : List Enclosure} (isLocal : outer ≠ [])
    (same : own.lexeme = name.lexeme) :
    Offends ⟨.initializer own :: outer, .expr (.var name depth)⟩ .readInOwnInitializer name
  /-- A local scope declares a name once. -/
  | declaredTwice {name : Token} {node : Node} {around : List Enclosure} (again : Repeats [] node.declares name) :
    Offends ⟨around, node⟩ .alreadyDeclared name
  /-- A class extends another one. -/
  | extendsItself {decl : ClassDecl} {base : NameRef} {around : List Enclosure} (extends_ : decl.superclass = some base)
    (same : base.name.lexeme = decl.name.lexeme) :
    Offends ⟨around, .stmt (.classDef decl)⟩ .inheritsFromItself base.name

end LoxLang.Scope
