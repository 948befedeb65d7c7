import LoxLang.Proofs.Trees
import LoxLang.Scope.Resolution

/-!
The local scopes around every place of a program where a name is looked up, and what it means that the depth kept there
is right. A program that is resolved without errors has the right depth at every such place.
-/

namespace LoxLang

theorem Bindings.put_put {α : Type} (b : Bindings α) (name : String) (old new : α) :
    (b.put name old).put name new = b.put name new := by
  have entries : ∀ es : List (String × α), putEntry name new (putEntry name old es) = putEntry name new es := by
    intro es
    induction es with
    | nil => simp [putEntry]
    | cons entry _ ih =>
      by_cases same : name == entry.1
      · simp [putEntry, same]
      · simp [putEntry, same, ih]
  simp only [put, entries]

namespace Scope

/-- A local scope as it is seen from a place inside it: the statements that run in it, and the names declared before
that place. -/
structure Region where
  body : List Stmt
  names : Declared

/-- The local scopes around a place, from the innermost on. -/
abbrev Regions := List Region

inductive Lookup where
  | read (name : Token) (depth : Option Nat)
  | assign (name : Token) (depth : Option Nat)
  | super (keyword : Token) (depth : Option Nat)

/-- The scopes after the innermost one has declared a name. -/
def declaring (name : String) (isSet : Bool) : Regions → Regions
  | [] => []
  | inner :: outer => ⟨inner.body, inner.names.put name isSet⟩ :: outer

def setNames (names : List String) : Declared := Bindings.empty.putAll (names.map (·, true))

/-- The scope in which a method finds its object. -/
def thisRegion : Region := ⟨[], setNames ["this"]⟩

/-- The scope in which methods find the class that their class extends. -/
def superRegion : Region := ⟨[], setNames ["super"]⟩

/-- The scope of the parameters and the body of a function. -/
def functionRegion (params : Option (List Token)) (body : List Stmt) : Region :=
  ⟨body, setNames ((params.getD []).map Token.lexeme)⟩

/-- The scopes around the methods of a class. -/
def classRegions (base : Option NameRef) (σ : Regions) : Regions :=
  if base.isSome then thisRegion :: superRegion :: σ else thisRegion :: σ

/-- The name that a statement declares. -/
def declared? : Stmt → Option String
  | .var name _ => some name.lexeme
  | .function decl => some decl.name.lexeme
  | .classDef decl => some decl.name.lexeme
  | .traitDef decl => some decl.name.lexeme
  | _ => none

def behind (s : Stmt) (σ : Regions) : Regions :=
  match declared? s with
  | some name => declaring name true σ
  | none => σ

mutual

/-- The lookups of an expression, each with the scopes around it. -/
def exprLookups (σ : Regions) : Expr → List (Regions × Lookup)
  | .binary left _ right | .logical left _ right => exprLookups σ left ++ exprLookups σ right
  | .unary _ operand => exprLookups σ operand
  | .conditional test yes no =>
    exprLookups σ test ++ exprLookups σ yes ++ exprLookups σ no
  | .grouping inner => exprLookups σ inner
  | .literal _ | .missing => []
  | .var name depth => [(σ, .read name depth)]
  | .assign name value depth => (σ, .assign name depth) :: exprLookups σ value
  | .call callee _ args => exprLookups σ callee ++ exprsLookups σ args
  | .get object _ => exprLookups σ object
  | .set object _ value => exprLookups σ object ++ exprLookups σ value
  | .this keyword depth => [(σ, .read keyword depth)]
  | .super keyword _ depth => [(σ, .super keyword depth)]

def exprsLookups (σ : Regions) : List Expr → List (Regions × Lookup)
  | [] => []
  | e :: rest => exprLookups σ e ++ exprsLookups σ rest

end

def optionLookups (σ : Regions) (e : Option Expr) : List (Regions × Lookup) := (e.map (exprLookups σ)).getD []

def refLookup (σ : Regions) (ref : NameRef) : Regions × Lookup := (σ, .read ref.name ref.depth)

mutual

/-- The lookups of a statement. A variable is declared, but not set, in its own initializer; a function, a class or a
trait is set inside itself. The traits of a class are looked up globally. -/
def stmtLookups (σ : Regions) : Stmt → List (Regions × Lookup)
  | .expression value | .print value => exprLookups σ value
  | .var name init => optionLookups (declaring name.lexeme false σ) init
  | .block body => stmtsLookups (⟨body, .empty⟩ :: σ) body
  | .ifElse test yes none => exprLookups σ test ++ stmtLookups σ yes
  | .ifElse test yes (some no) =>
    exprLookups σ test ++ stmtLookups σ yes ++ stmtLookups σ no
  | .whileLoop test body => exprLookups σ test ++ stmtLookups σ body
  | .breakLoop | .missing => []
  | .returnValue _ value => optionLookups σ value
  | .function ⟨name, params, body⟩ => functionLookups (declaring name.lexeme true σ) ⟨name, params, body⟩
  | .classDef ⟨name, base, methods, own, _⟩ =>
    (base.map (refLookup σ)).toList ++
      functionsLookups (classRegions base (declaring name.lexeme true σ)) methods ++
      functionsLookups (classRegions base (declaring name.lexeme true σ)) own
  | .traitDef ⟨name, traits, methods⟩ =>
    traits.map (refLookup (declaring name.lexeme true σ)) ++
      functionsLookups (thisRegion :: declaring name.lexeme true σ) methods

def stmtsLookups (σ : Regions) : List Stmt → List (Regions × Lookup)
  | [] => []
  | s :: rest => stmtLookups σ s ++ stmtsLookups (behind s σ) rest

def functionLookups (σ : Regions) : FunDecl → List (Regions × Lookup)
  | ⟨_, params, body⟩ => stmtsLookups (functionRegion params body :: σ) body

def functionsLookups (σ : Regions) : List FunDecl → List (Regions × Lookup)
  | [] => []
  | f :: rest => functionLookups σ f ++ functionsLookups σ rest

end

def namesOf (σ : Regions) : List Declared := σ.map Region.names

/-- The scope a number of steps out declares the name, set or not. -/
def Declares (σ : Regions) (depth : Nat) (name : String) (isSet : Bool) : Prop :=
  ∃ region, σ[depth]? = some region ∧ region.names.get? name = some isSet

/-- The depth kept at a lookup is right: it is that of the nearest scope that declares the name. A name that is read is
also set there; `super` is set by the scope around that of `this`. -/
def Lookup.Settled (σ : Regions) : Lookup → Prop
  | .read name depth =>
    depth = depthOf? (namesOf σ) name.lexeme ∧ ∀ d, depth = some d → Declares σ d name.lexeme true
  | .assign name depth => depth = depthOf? (namesOf σ) name.lexeme
  | .super _ depth => ∃ d, depth = some (d + 1) ∧ Declares σ (d + 1) "super" true ∧ Declares σ d "this" true

theorem namesOf_declaring (name : String) (isSet : Bool) (σ : Regions) :
    namesOf (declaring name isSet σ) = (namesOf σ).modifyHead (·.put name isSet) := by
  cases σ <;> rfl

theorem names_classRegions (base : Option NameRef) (σ : Regions) :
    namesOf (classRegions base σ) =
      setNames ["this"] :: ((if base.isSome then [setNames ["super"]] else []) ++ namesOf σ) := by
  cases base <;> rfl

end Scope
end LoxLang
