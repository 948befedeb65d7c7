import LoxLang.Proofs.Layouts
import LoxLang.Proofs.Resolving

/-!
Resolving a program in which some scopes call a variable by a new name. Since the new name stands nowhere else, every
use of a name is found in the same scope as before, so the same depths are filled in, and if nothing was reported,
nothing is.
-/

namespace LoxLang

/-! ### The names of a tree -/

mutual

/-- The names that are looked up in an expression. -/
def Expr.names : Expr → List String
  | .binary left _ right | .logical left _ right => left.names ++ right.names
  | .unary _ operand => operand.names
  | .conditional test yes no => test.names ++ yes.names ++ no.names
  | .grouping inner => inner.names
  | .literal _ | .missing => []
  | .var name _ => [name.lexeme]
  | .assign name value _ => name.lexeme :: value.names
  | .call callee _ args => callee.names ++ Expr.allNames args
  | .get object _ => object.names
  | .set object _ value => object.names ++ value.names
  | .this keyword _ => [keyword.lexeme]
  | .super keyword _ _ => [keyword.lexeme]

def Expr.allNames : List Expr → List String
  | [] => []
  | e :: rest => e.names ++ Expr.allNames rest

end

def Expr.optionNames (e : Option Expr) : List String := (e.map Expr.names).getD []

def NameRef.allNames (refs : List NameRef) : List String := refs.map fun ref => ref.name.lexeme

mutual

/-- The names that are declared or looked up in a statement. -/
def Stmt.names : Stmt → List String
  | .expression value | .print value => value.names
  | .var name init => name.lexeme :: Expr.optionNames init
  | .block body => Stmt.allNames body
  | .ifElse test yes none => test.names ++ yes.names
  | .ifElse test yes (some no) => test.names ++ yes.names ++ no.names
  | .whileLoop test body => test.names ++ body.names
  | .breakLoop | .missing => []
  | .returnValue _ value => Expr.optionNames value
  | .function decl => decl.names
  | .classDef ⟨name, base, methods, own, traits⟩ =>
    name.lexeme :: (NameRef.allNames base.toList ++ FunDecl.allNames methods ++
      FunDecl.allNames own ++ NameRef.allNames traits)
  | .traitDef ⟨name, traits, methods⟩ =>
    name.lexeme :: (NameRef.allNames traits ++ FunDecl.allNames methods)

def Stmt.allNames : List Stmt → List String
  | [] => []
  | s :: rest => s.names ++ Stmt.allNames rest

def FunDecl.names : FunDecl → List String
  | ⟨name, params, body⟩ => name.lexeme :: ((params.getD []).map Token.lexeme ++ Stmt.allNames body)

def FunDecl.allNames : List FunDecl → List String
  | [] => []
  | f :: rest => f.names ++ FunDecl.allNames rest

end

/-! ### A new name -/

/-- The name is none of those under which methods find their object and the class that their class extends. -/
structure Unreserved (name : String) : Prop where
  this : name ≠ thisName
  super : name ≠ superName

/-- A scope keeps its names, or calls one by a new name. -/
def Replaces (x y : String) (π : Renaming) : Prop := π = 1 ∨ π = Equiv.swap x y

/-- What a name is called in a scope that keeps its names or calls one by a new name. -/
def Becomes (x y name name' : String) : Prop := name' = name ∨ (name = x ∧ name' = y)

section
variable {x y name name' : String} {π : Renaming} {ρ : List Renaming}

theorem replaces_one : Replaces x y 1 := .inl rfl

theorem Replaces.proper (replaces : Replaces x y π) (old : Unreserved x) (new : Unreserved y) : π.Proper := by
  rcases replaces with rfl | rfl
  · exact Renaming.proper_one
  · exact ⟨Equiv.swap_apply_of_ne_of_ne old.this.symm new.this.symm,
      Equiv.swap_apply_of_ne_of_ne old.super.symm new.super.symm⟩

theorem Replaces.becomes (replaces : Replaces x y π) (old : name ≠ y) : Becomes x y name (π name) := by
  rcases replaces with rfl | rfl
  · exact .inl rfl
  · by_cases same : name = x
    · exact .inr ⟨same, by rw [same, Equiv.swap_apply_left]⟩
    · exact .inl (Equiv.swap_apply_of_ne_of_ne same old)

theorem Replaces.symm_apply (replaces : Replaces x y π) (old : name ≠ y) (becomes : Becomes x y name name') :
    π.symm name' = name ∨ π.symm name' = y := by
  rcases becomes with rfl | ⟨rfl, rfl⟩
  · have inverse : Replaces x y π.symm := by
      rcases replaces with rfl | rfl
      · exact .inl rfl
      · exact .inr (Equiv.symm_swap x y)
    rcases inverse.becomes old with same | ⟨-, same⟩
    · exact .inl same
    · exact .inr same
  · rcases replaces with rfl | rfl
    · exact .inr rfl
    · exact .inl (by rw [Equiv.symm_swap, Equiv.swap_apply_right])

theorem replaces_renamingAt (replaces : ∀ π ∈ ρ, Replaces x y π) (depth : Option Nat) :
    Replaces x y (renamingAt ρ depth) := by
  cases depth with
  | none => exact replaces_one
  | some d =>
    simp only [renamingAt, Option.bind_some]
    cases found : ρ[d]? with
    | none => exact replaces_one
    | some π => exact replaces π (List.mem_of_getElem? found)

theorem replaces_cons (isReplaced : Replaces x y π) (replaces : ∀ π ∈ ρ, Replaces x y π) :
    ∀ π' ∈ π :: ρ, Replaces x y π' := by
  simpa using ⟨isReplaced, replaces⟩

theorem replaces_aroundMembers (replaces : ∀ π ∈ ρ, Replaces x y π) (base : Option NameRef) :
    ∀ π ∈ aroundMembers base ρ, Replaces x y π := by
  cases base with
  | none => exact replaces
  | some => exact replaces_cons replaces_one replaces

end

namespace Scope

/-! ### Scopes -/

/-- The scopes around a place, and the same ones with their names renamed. None of them has the new name before. -/
inductive ScopesAlike (y : String) : List Renaming → List Declared → List Declared → Prop
  | nil (ρ : List Renaming) : ScopesAlike y ρ [] []
  | cons {π : Renaming} {ρ : List Renaming} {inner inner' : Declared} {outer outer' : List Declared}
    (alike : inner.Alike π Eq inner') (unused : inner.contains y = false) (around : ScopesAlike y ρ outer outer') :
    ScopesAlike y (π :: ρ) (inner :: outer) (inner' :: outer')

section
variable {x y name name' : String} {π : Renaming} {ρ : List Renaming} {inner inner' : Declared}
  {scopes scopes' : List Declared}

theorem contains_of_becomes (replaces : Replaces x y π) (alike : inner.Alike π Eq inner')
    (unused : inner.contains y = false) (old : name ≠ y) (becomes : Becomes x y name name')
    (absent : inner.contains name = false) : inner'.contains name' = false := by
  have same := alike.contains π.injective (π.symm name')
  rw [Equiv.apply_symm_apply] at same
  rw [same]
  rcases replaces.symm_apply old becomes with before | before
  · rw [before, absent]
  · rw [before, unused]

theorem renamingAt_succ (π : Renaming) (ρ : List Renaming) (depth : Option Nat) :
    renamingAt (π :: ρ) (depth.map (· + 1)) = renamingAt ρ depth := by
  cases depth <;> rfl

/-- A name is found in the same scope, by the name that it has there. -/
theorem ScopesAlike.depthOf?_eq (alike : ScopesAlike y ρ scopes scopes') (replaces : ∀ π ∈ ρ, Replaces x y π)
    (old : name ≠ y) :
    depthOf? scopes' (renamingAt ρ (depthOf? scopes name) name) = depthOf? scopes name := by
  induction alike with
  | nil => rfl
  | @cons π ρ inner inner' outer outer' alike unused _ ih =>
    obtain ⟨inside, outside⟩ := List.forall_mem_cons.mp replaces
    simp only [depthOf?_cons]
    cases here : inner.contains name with
    | true =>
      have found : inner'.contains (renamingAt (π :: ρ) (some 0) name) = true :=
        (alike.contains π.injective name).trans here
      simp [found]
    | false =>
      have becomes := (replaces_renamingAt outside (depthOf? outer name)).becomes old
      have absent := contains_of_becomes inside alike unused old becomes here
      simp only [if_false, Bool.false_eq_true, renamingAt_succ, absent, ih outside]

theorem eq_of_rel {α : Type} {a b : Option α} (related : Option.Rel Eq a b) : a = b := by
  cases related with
  | some same => rw [same]
  | none => rfl

/-- The innermost scope has set a name, or not, as it has before. -/
theorem ScopesAlike.innermost_eq (alike : ScopesAlike y ρ scopes scopes') (replaces : ∀ π ∈ ρ, Replaces x y π)
    (old : name ≠ y) :
    scopes'.head?.bind (·.get? (renamingAt ρ (depthOf? scopes name) name)) = scopes.head?.bind (·.get? name) := by
  cases alike with
  | nil => rfl
  | @cons π ρ inner inner' outer outer' alike unused _ =>
    obtain ⟨inside, outside⟩ := List.forall_mem_cons.mp replaces
    simp only [List.head?_cons, Option.bind_some, depthOf?_cons]
    cases here : inner.contains name with
    | true => exact (eq_of_rel (alike.get? π.injective name)).symm
    | false =>
      have becomes := (replaces_renamingAt outside (depthOf? outer name)).becomes old
      have absent := contains_of_becomes inside alike unused old becomes here
      rw [if_neg Bool.false_ne_true, renamingAt_succ]
      rw [Bindings.contains, Option.isSome_eq_false_iff, Option.isNone_iff_eq_none] at here absent
      rw [here, absent]

theorem ScopesAlike.declared_eq (alike : ScopesAlike y ρ scopes scopes') (name : String) :
    scopes'.head?.bind (·.get? (renamingAt ρ (some 0) name)) = scopes.head?.bind (·.get? name) := by
  cases alike with
  | nil => rfl
  | @cons π ρ inner inner' outer outer' alike _ _ => exact (eq_of_rel (alike.get? π.injective name)).symm

theorem contains_put {α : Type} (b : Bindings α) {name other : String} (value : α) (different : other ≠ name) :
    (b.put name value).contains other = b.contains other := by
  rw [Bindings.contains, Bindings.contains, Bindings.get?_put_of_ne _ _ different]

theorem ScopesAlike.put (alike : ScopesAlike y ρ scopes scopes') (old : name ≠ y) (isSet : Bool) :
    ScopesAlike y ρ (scopes.modifyHead (·.put name isSet))
      (scopes'.modifyHead (·.put (renamingAt ρ (some 0) name) isSet)) := by
  cases alike with
  | nil ρ => exact .nil ρ
  | @cons π ρ inner inner' outer outer' alike unused around =>
    refine .cons (alike.put π.injective name rfl) ?_ around
    rw [contains_put _ _ old.symm, unused]

theorem ScopesAlike.push (alike : ScopesAlike y ρ scopes scopes') (π : Renaming) :
    ScopesAlike y (π :: ρ) (setNames [] :: scopes) (setNames [] :: scopes') :=
  .cons Bindings.alike_empty rfl alike

theorem ScopesAlike.pushName (alike : ScopesAlike y ρ scopes scopes') (new : y ≠ name) :
    ScopesAlike y (1 :: ρ) (setNames [name] :: scopes) (setNames [name] :: scopes') := by
  refine .cons (Bindings.alike_empty.put (1 : Renaming).injective name rfl) ?_ alike
  exact contains_put (.empty : Declared) true new

end

/-! ### Views -/

/-- What is known at a place, and what is known there with names renamed. -/
structure ViewsAlike (y : String) (ρ : List Renaming) (v v' : View) : Prop where
  scopes : ScopesAlike y ρ v.scopes v'.scopes
  function : v'.function = v.function
  classBody : v'.classBody = v.classBody

section
variable {x y : String} {ρ : List Renaming} {v v' : View} (alike : ViewsAlike y ρ v v')
include alike

theorem ViewsAlike.put {name : Token} (old : name.lexeme ≠ y) (isSet : Bool) :
    ViewsAlike y ρ (v.put name isSet) (v'.put (name.rename (renamingAt ρ (some 0))) isSet) :=
  { alike with scopes := alike.scopes.put old isSet }

theorem ViewsAlike.set {names : List Token} (old : ∀ name ∈ names, name.lexeme ≠ y) :
    ViewsAlike y ρ (v.set names) (v'.set (names.map (Token.rename (renamingAt ρ (some 0))))) := by
  induction names generalizing v v' with
  | nil => rwa [List.map_nil, View.set_nil, View.set_nil]
  | cons name _ ih =>
    obtain ⟨here, there⟩ := List.forall_mem_cons.mp old
    have first : ViewsAlike y ρ (v.set [name]) (v'.set [name.rename (renamingAt ρ (some 0))]) := alike.put here true
    have all := ih first there
    rwa [View.set_append, View.set_append] at all

theorem ViewsAlike.setKept {name : Token} (old : name.lexeme ≠ y) (kept : KeepsName ρ name) :
    ViewsAlike y ρ (v.set [name]) (v'.set [name]) := by
  have all := alike.set (List.forall_mem_singleton.mpr old)
  rwa [List.map_singleton, Token.rename_of_keeps kept] at all

theorem ViewsAlike.push (π : Renaming) : ViewsAlike y (π :: ρ) (v.push []) (v'.push []) :=
  { alike with scopes := alike.scopes.push π }

theorem ViewsAlike.pushName {name : String} (new : y ≠ name) :
    ViewsAlike y (1 :: ρ) (v.push [name]) (v'.push [name]) := { alike with scopes := alike.scopes.pushName new }

theorem ViewsAlike.members (word : Unreserved y) (superclass : Option NameRef) :
    ViewsAlike y (1 :: aroundMembers superclass ρ) (v.members superclass) (v'.members superclass) := by
  have inside : ViewsAlike y ρ (v.inClass (bodyOf superclass)) (v'.inClass (bodyOf superclass)) :=
    { alike with classBody := rfl }
  cases superclass with
  | none => exact inside.pushName word.this
  | some => exact (inside.pushName word.super).pushName word.this

theorem ViewsAlike.quiet_declares {names : List Token} (old : ∀ name ∈ names, name.lexeme ≠ y)
    (quiet : Quiet (v.declares names)) : Quiet (v'.declares (names.map (Token.rename (renamingAt ρ (some 0))))) := by
  induction names generalizing v v' with
  | nil => exact quiet_nil
  | cons name _ ih =>
    obtain ⟨here, there⟩ := List.forall_mem_cons.mp old
    have same : v'.innermost? (name.rename (renamingAt ρ (some 0))).lexeme = v.innermost? name.lexeme :=
      alike.scopes.declared_eq name.lexeme
    rw [View.declares, quiet_append, quiet_reportIf] at quiet
    rw [List.map_cons, View.declares, quiet_append, quiet_reportIf, same]
    exact ⟨quiet.1, ih (alike.put here true) there quiet.2⟩

theorem ViewsAlike.quiet_declaresKept {name : Token} (old : name.lexeme ≠ y) (kept : KeepsName ρ name)
    (quiet : Quiet (v.declares [name])) : Quiet (v'.declares [name]) := by
  have all := alike.quiet_declares (by simpa using old) quiet
  rwa [List.map_singleton, Token.rename_of_keeps kept] at all

variable (replaces : ∀ π ∈ ρ, Replaces x y π)
include replaces

theorem ViewsAlike.depth_eq {name : Token} (old : name.lexeme ≠ y) :
    depthOf? v'.scopes (name.rename (renamingAt ρ (depthOf? v.scopes name.lexeme))).lexeme =
      depthOf? v.scopes name.lexeme := alike.scopes.depthOf?_eq replaces old

theorem ViewsAlike.quiet_reads {name : Token} (old : name.lexeme ≠ y) (quiet : Quiet (v.reads name)) :
    Quiet (v'.reads (name.rename (renamingAt ρ (depthOf? v.scopes name.lexeme)))) := by
  rw [Scope.quiet_reads] at quiet ⊢
  exact (alike.scopes.innermost_eq replaces old).trans_ne quiet

theorem ViewsAlike.located_eq {ref : NameRef} (old : ref.name.lexeme ≠ y) :
    located v'.scopes ((located v.scopes ref).rename ρ) = (located v.scopes ref).rename ρ := by
  have same := alike.depth_eq replaces old
  exact congrArg (NameRef.mk _) same

end

/-! ### Expressions -/

/-- A part of a parsed tree that resolving leaves as it is, and about which nothing is reported. -/
structure Stays {α : Type} (Parsed : α → Prop) (fill : α → α) (notes : α → List Note) (part : α) : Prop where
  parsed : Parsed part
  filled : fill part = part
  quiet : Quiet (notes part)

abbrev ExprStays (v : View) : Expr → Prop := Stays (Expr.Parsed fun _ => True) (fillExpr v) (exprNotes v)

section
variable {x y : String} {ρ : List Renaming} {v v' : View} {source : Token → Prop}

section
variable (replaces : ∀ π ∈ ρ, Replaces x y π) (alike : ViewsAlike y ρ v v')
include replaces alike

set_option linter.unusedSectionVars false in
mutual

/-- An expression with names renamed stays as it is, by induction on what it was filled in from. -/
theorem stays_expr : ∀ e : Expr, e.Parsed source → y ∉ (fillExpr v e).names → Quiet (exprNotes v e) →
    ExprStays v' ((fillExpr v e).rename ρ)
  | .binary left op right, parsed, new, quiet | .logical left op right, parsed, new, quiet => by
    simp only [fillExpr, Expr.names, List.mem_append, not_or] at new
    obtain ⟨one, two⟩ := quiet_append.mp quiet
    have first := stays_expr left parsed.1 new.1 one
    have second := stays_expr right parsed.2 new.2 two
    exact ⟨⟨first.parsed, second.parsed⟩, by simp only [fillExpr, Expr.rename, first.filled, second.filled],
      quiet_append.mpr ⟨first.quiet, second.quiet⟩⟩
  | .unary _ inner, parsed, new, quiet | .grouping inner, parsed, new, quiet | .get inner _, parsed, new, quiet => by
    have part := stays_expr inner parsed new quiet
    exact ⟨part.parsed, by simp only [fillExpr, Expr.rename, part.filled], part.quiet⟩
  | .conditional test yes no, parsed, new, quiet => by
    simp only [fillExpr, Expr.names, List.mem_append, not_or] at new
    obtain ⟨one, others⟩ := quiet_append.mp quiet
    obtain ⟨two, three⟩ := quiet_append.mp others
    have first := stays_expr test parsed.1 new.1.1 one
    have second := stays_expr yes parsed.2.1 new.1.2 two
    have third := stays_expr no parsed.2.2 new.2 three
    exact ⟨⟨first.parsed, second.parsed, third.parsed⟩,
      by simp only [fillExpr, Expr.rename, first.filled, second.filled, third.filled],
      quiet_append.mpr ⟨first.quiet, quiet_append.mpr ⟨second.quiet, third.quiet⟩⟩⟩
  | .literal _, _, _, _ => ⟨trivial, rfl, quiet_nil⟩
  | .var name _, _, new, quiet => by
    have old : name.lexeme ≠ y := by simpa [fillExpr, Expr.names, eq_comm] using new
    exact ⟨trivial, congrArg (Expr.var _) (alike.depth_eq replaces old), alike.quiet_reads replaces old quiet⟩
  | .assign name value _, parsed, new, quiet => by
    simp only [fillExpr, Expr.names, List.mem_cons, not_or] at new
    have first := stays_expr value parsed.2 new.2 (quiet_append.mp quiet).1
    refine ⟨⟨⟨parsed.1.1, trivial⟩, first.parsed⟩, ?_, quiet_append.mpr ⟨first.quiet, quiet_seeks _ _⟩⟩
    simp only [fillExpr, Expr.rename, first.filled, alike.depth_eq replaces (Ne.symm new.1)]
  | .call callee _ args, parsed, new, quiet => by
    simp only [fillExpr, Expr.names, List.mem_append, not_or] at new
    obtain ⟨one, two⟩ := quiet_append.mp quiet
    have first := stays_expr callee parsed.1 new.1 one
    have others := stays_exprs args parsed.2 new.2 two
    exact ⟨⟨first.parsed, others.parsed⟩, by simp only [fillExpr, Expr.rename, first.filled, others.filled],
      quiet_append.mpr ⟨first.quiet, others.quiet⟩⟩
  | .set object _ value, parsed, new, quiet => by
    simp only [fillExpr, Expr.names, List.mem_append, not_or] at new
    obtain ⟨one, two⟩ := quiet_append.mp quiet
    have first := stays_expr value parsed.2 new.2 one
    have second := stays_expr object parsed.1 new.1 two
    exact ⟨⟨second.parsed, first.parsed⟩, by simp only [fillExpr, Expr.rename, first.filled, second.filled],
      quiet_append.mpr ⟨first.quiet, second.quiet⟩⟩
  | .this keyword _, parsed, new, quiet => by
    have inside := quiet_readsThis.mp quiet
    have old : keyword.lexeme ≠ y := by simpa [fillExpr, Expr.names, eq_comm] using new
    have inside' : v'.classBody ≠ .none := alike.classBody ▸ inside
    rw [fillExpr, View.thisDepth?, if_neg inside]
    refine ⟨⟨parsed.1, trivial⟩, ?_, quiet_readsThis.mpr inside'⟩
    simp only [Expr.rename, fillExpr, View.thisDepth?, if_neg inside', alike.depth_eq replaces old]
  | .super keyword _ _, parsed, new, quiet => by
    have old : keyword.lexeme ≠ y := by simpa [fillExpr, Expr.names, eq_comm] using new
    exact ⟨⟨parsed.1, trivial⟩, congrArg (Expr.super _ _) (alike.depth_eq replaces old),
      quiet_readsSuper.mpr (alike.classBody.trans (quiet_readsSuper.mp quiet))⟩
  | .missing, parsed, _, _ => parsed.elim

theorem stays_exprs : ∀ es : List Expr, Expr.AllParsed source es → y ∉ Expr.allNames (fillExprs v es) →
    Quiet (exprsNotes v es) →
    Stays (Expr.AllParsed fun _ => True) (fillExprs v') (exprsNotes v') (Expr.renameAll ρ (fillExprs v es))
  | [], _, _, _ => ⟨trivial, rfl, quiet_nil⟩
  | e :: rest, parsed, new, quiet => by
    simp only [fillExprs, Expr.allNames, List.mem_append, not_or] at new
    obtain ⟨one, two⟩ := quiet_append.mp quiet
    have first := stays_expr e parsed.1 new.1 one
    have others := stays_exprs rest parsed.2 new.2 two
    exact ⟨⟨first.parsed, others.parsed⟩, by simp only [fillExprs, Expr.renameAll, first.filled, others.filled],
      quiet_append.mpr ⟨first.quiet, others.quiet⟩⟩

end

theorem stays_option {e : Option Expr} (parsed : Expr.OptionParsed source e)
    (new : y ∉ Expr.optionNames (e.map (fillExpr v))) (quiet : Quiet (optionNotes v e)) :
    Stays (Expr.OptionParsed fun _ => True) (Option.map (fillExpr v')) (optionNotes v')
      ((e.map (fillExpr v)).map (Expr.rename ρ)) := by
  cases e with
  | none => exact ⟨nofun, rfl, quiet_nil⟩
  | some e =>
    have part := stays_expr replaces alike e (parsed e rfl) new quiet
    refine ⟨?_, congrArg some part.filled, part.quiet⟩
    rintro _ ⟨⟩
    exact part.parsed

theorem stays_refs {refs : List NameRef} (new : y ∉ NameRef.allNames (refs.map (located v.scopes))) (quiet : Quiet (refsNotes v refs)) :
    ((refs.map (located v.scopes)).map (NameRef.rename ρ)).map (located v'.scopes) =
        (refs.map (located v.scopes)).map (NameRef.rename ρ) ∧
      Quiet (refsNotes v' ((refs.map (located v.scopes)).map (NameRef.rename ρ))) := by
  induction refs with
  | nil => exact ⟨rfl, quiet_nil⟩
  | cons ref _ ih =>
    simp only [NameRef.allNames, List.map_cons, List.mem_cons, not_or] at new
    obtain ⟨one, two⟩ := quiet_append.mp quiet
    have old : ref.name.lexeme ≠ y := Ne.symm new.1
    obtain ⟨same, others⟩ := ih new.2 two
    exact ⟨congrArg₂ List.cons (alike.located_eq replaces old) same,
      quiet_append.mpr ⟨alike.quiet_reads replaces old one, others⟩⟩

end

/-! ### Statements -/

/-- A class is extended under a name other than its own exactly if it was before: where it has just been declared, its
own name is found in the innermost scope, which keeps it. -/
theorem same_name_iff (replaces : ∀ π ∈ ρ, Replaces x y π) {name base : String} {scopes : List Declared}
    (kept : renamingAt ρ (some 0) name = name) (new : y ≠ name) (newBase : y ≠ base)
    (declared : scopes = [] ∨ ∃ inner outer, scopes = inner :: outer ∧ inner.contains name = true) :
    name = renamingAt ρ (depthOf? scopes base) base ↔ name = base := by
  constructor
  · intro same
    rcases (replaces_renamingAt replaces (depthOf? scopes base)).becomes newBase.symm with becomes | ⟨-, becomes⟩
    · rw [same, becomes]
    · exact absurd (same.trans becomes).symm new
  · rintro rfl
    rcases declared with rfl | ⟨inner, outer, rfl, found⟩
    · rfl
    · rw [depthOf?_cons, if_pos found, kept]

theorem stays_superclass (replaces : ∀ π ∈ ρ, Replaces x y π) {name : Token} {superclass : Option NameRef}
    (alike : ViewsAlike y ρ (v.set [name]) (v'.set [name])) (kept : KeepsName ρ name) (new : y ≠ name.lexeme)
    (newBase : y ∉ NameRef.allNames (superclass.map (located (v.set [name]).scopes)).toList)
    (quiet : Quiet ((v.set [name]).extends_ name superclass)) :
    ((superclass.map (located (v.set [name]).scopes)).map (NameRef.rename ρ)).map (located (v'.set [name]).scopes) =
        (superclass.map (located (v.set [name]).scopes)).map (NameRef.rename ρ) ∧
      Quiet ((v'.set [name]).extends_ name ((superclass.map (located (v.set [name]).scopes)).map (NameRef.rename ρ))) := by
  cases superclass with
  | none => exact ⟨rfl, quiet_nil⟩
  | some base =>
    have newName : y ≠ base.name.lexeme := by simpa [NameRef.allNames, located] using newBase
    have declared : (v.set [name]).scopes = [] ∨
        ∃ inner outer, (v.set [name]).scopes = inner :: outer ∧ inner.contains name.lexeme = true := by
      obtain ⟨scopes, _, _⟩ := v
      cases scopes with
      | nil => exact .inl rfl
      | cons => exact .inr ⟨_, _, rfl, by simp [Bindings.putAll, Bindings.contains, Bindings.get?_put_self]⟩
    have same := same_name_iff replaces kept new newName declared
    rw [View.extends_, quiet_append, quiet_reportIf] at quiet
    refine ⟨congrArg some (alike.located_eq replaces newName.symm), ?_⟩
    rw [Option.map_some, Option.map_some, View.extends_, quiet_append, quiet_reportIf]
    exact ⟨fun wrong => quiet.1 (same.mp wrong), alike.quiet_reads replaces newName.symm quiet.2⟩

abbrev StmtStays (v : View) : Stmt → Prop := Stays (Stmt.Parsed fun _ => True) (fillStmt v) (stmtNotes v)

abbrev StmtsStay (v : View) : List Stmt → Prop := Stays (Stmt.AllParsed fun _ => True) (fillStmts v) (stmtsNotes v)

abbrev FunctionStays (v : View) (context : FunctionContext) : FunDecl → Prop :=
  Stays (FunDecl.Parsed fun _ => True) (fillFunction v context) (functionNotes v context)

abbrev FunctionsStay (v : View) (kind : Token → FunctionContext) : List FunDecl → Prop :=
  Stays (FunDecl.AllParsed fun _ => True) (fillFunctions v kind) (functionsNotes v kind)

theorem isPlain_renamed {allowed : Renaming → Prop} {s s' : Stmt} (renamed : Stmt.Renamed allowed ρ s s') :
    s'.isPlain = s.isPlain := by cases renamed <;> rfl

/-- The names that a statement declares, by the name that they have in the scope around it. -/
theorem declaredNames_renamed {allowed : Renaming → Prop} {s s' : Stmt} (renamed : Stmt.Renamed allowed ρ s s') :
    declaredNames s' = (declaredNames s).map (Token.rename (renamingAt ρ (some 0))) := by
  cases renamed with
  | function kept inner => simp [declaredNames, inner.name_eq, Token.rename_of_keeps kept]
  | classDef kept | traitDef kept => simp [declaredNames, Token.rename_of_keeps kept]
  | _ => rfl

theorem declaredNames_fillStmt (v : View) (s : Stmt) : declaredNames (fillStmt v s) = declaredNames s := by
  cases s with
  | ifElse _ _ no => cases no <;> rfl
  | function decl | classDef decl | traitDef decl => cases decl; rfl
  | _ => rfl

theorem ne_of_declared {s : Stmt} (new : y ∉ s.names) : ∀ name ∈ declaredNames s, name.lexeme ≠ y := by
  rintro name member rfl
  cases s with
  | var => simp_all [declaredNames, Stmt.names]
  | function decl | classDef decl | traitDef decl =>
    cases decl
    simp_all [declaredNames, Stmt.names, FunDecl.names]
  | _ => cases member

section
variable (word : Unreserved y)
include word

set_option linter.unusedSectionVars false in
mutual

/-- A statement with names renamed stays as it is, by induction on what it was filled in from. -/
theorem stays_stmt : ∀ s : Stmt, ∀ {ρ : List Renaming} {r' : Stmt} {v v' : View},
    s.Parsed source → Stmt.Renamed (Replaces x y) ρ (fillStmt v s) r' → (∀ π ∈ ρ, Replaces x y π) →
    s.NoClassMethods → y ∉ (fillStmt v s).names → ViewsAlike y ρ v v' → Quiet (stmtNotes v s) → StmtStays v' r'
  | .expression value, ρ, r', v, v', parsed, renamed, replaces, _, new, alike, quiet
  | .print value, ρ, r', v, v', parsed, renamed, replaces, _, new, alike, quiet => by
    have part := stays_expr replaces alike value parsed new quiet
    cases renamed
    exact ⟨part.parsed, by simp only [fillStmt, part.filled], part.quiet⟩
  | .var name init, ρ, r', v, v', parsed, renamed, replaces, _, new, alike, quiet => by
    simp only [fillStmt, Stmt.names, List.mem_cons, not_or] at new
    obtain ⟨declared, valued⟩ := quiet_append.mp quiet
    have old : name.lexeme ≠ y := Ne.symm new.1
    have part := stays_option replaces (alike.put old false) parsed.2 new.2 valued
    cases renamed
    exact ⟨⟨⟨parsed.1.1, trivial⟩, part.parsed⟩, congrArg (Stmt.var _) part.filled,
      quiet_append.mpr ⟨alike.quiet_declares (by simpa using old) declared, part.quiet⟩⟩
  | .block body, ρ, r', v, v', parsed, renamed, replaces, simple, new, alike, quiet => by
    cases renamed with
    | block isAllowed inner =>
      have part := stays_stmts body parsed inner (replaces_cons isAllowed replaces) simple new (alike.push _) quiet
      exact ⟨part.parsed, congrArg Stmt.block part.filled, part.quiet⟩
  | .ifElse test yes none, ρ, r', v, v', parsed, renamed, replaces, simple, new, alike, quiet => by
    simp only [fillStmt, Stmt.names, List.mem_append, not_or] at new
    obtain ⟨tested, chosen⟩ := quiet_append.mp quiet
    have test := stays_expr replaces alike test parsed.1 new.1 tested
    cases renamed with
    | ifThen branch =>
      have yes := stays_stmt yes parsed.2.2 branch replaces simple new.2 alike chosen
      exact ⟨⟨test.parsed, (isPlain_renamed branch).trans ((isPlain_fillStmt v _).trans parsed.2.1), yes.parsed⟩,
        by simp only [fillStmt, test.filled, yes.filled], quiet_append.mpr ⟨test.quiet, yes.quiet⟩⟩
  | .ifElse test yes (some no), ρ, r', v, v', parsed, renamed, replaces, simple, new, alike,
      quiet => by
    simp only [fillStmt, Stmt.names, List.mem_append, not_or] at new
    obtain ⟨tested, branches⟩ := quiet_append.mp quiet
    obtain ⟨chosen, other⟩ := quiet_append.mp branches
    obtain ⟨parsedTest, ⟨plain, parsedThen⟩, plainElse, parsedElse⟩ := parsed
    have test := stays_expr replaces alike test parsedTest new.1.1 tested
    cases renamed with
    | ifElse branch branch' =>
      have yes := stays_stmt yes parsedThen branch replaces simple.1 new.1.2 alike chosen
      have no := stays_stmt no parsedElse branch' replaces simple.2 new.2 alike other
      exact ⟨⟨test.parsed, ⟨(isPlain_renamed branch).trans ((isPlain_fillStmt v _).trans plain), yes.parsed⟩,
        (isPlain_renamed branch').trans ((isPlain_fillStmt v _).trans plainElse), no.parsed⟩,
        by simp only [fillStmt, test.filled, yes.filled, no.filled],
        quiet_append.mpr ⟨test.quiet, quiet_append.mpr ⟨yes.quiet, no.quiet⟩⟩⟩
  | .whileLoop test body, ρ, r', v, v', parsed, renamed, replaces, simple, new, alike, quiet => by
    simp only [fillStmt, Stmt.names, List.mem_append, not_or] at new
    obtain ⟨tested, turned⟩ := quiet_append.mp quiet
    have test := stays_expr replaces alike test parsed.1 new.1 tested
    cases renamed with
    | whileLoop inner =>
      have turn := stays_stmt body parsed.2.2 inner replaces simple new.2 alike turned
      exact ⟨⟨test.parsed, (isPlain_renamed inner).trans ((isPlain_fillStmt v _).trans parsed.2.1), turn.parsed⟩,
        by simp only [fillStmt, test.filled, turn.filled], quiet_append.mpr ⟨test.quiet, turn.quiet⟩⟩
  | .breakLoop, ρ, r', v, v', _, renamed, _, _, _, _, _ => by
    cases renamed
    exact ⟨trivial, rfl, quiet_nil⟩
  | .returnValue keyword value, ρ, r', v, v', parsed, renamed, replaces, _, new, alike, quiet => by
    obtain ⟨allowed, valued⟩ := quiet_append.mp quiet
    have part := stays_option replaces alike parsed new valued
    cases renamed
    refine ⟨part.parsed, congrArg (Stmt.returnValue keyword) part.filled, quiet_append.mpr ⟨?_, part.quiet⟩⟩
    rw [View.returns, quiet_append, quiet_reportIf, quiet_reportIf] at allowed ⊢
    rwa [Option.isSome_map, Option.isSome_map, alike.function]
  | .function ⟨name, params, body⟩, ρ, r', v, v', parsed, renamed, replaces, simple, new, alike, quiet => by
    obtain ⟨declared, made⟩ := quiet_append.mp quiet
    cases renamed with
    | function kept inner =>
      have old : name.lexeme ≠ y := ne_of_declared new name List.mem_cons_self
      have part := stays_function ⟨name, params, body⟩ parsed inner replaces simple new (alike.setKept old kept) made
      have same : _ = name := inner.name_eq
      rw [← same] at part declared
      refine ⟨part.parsed, congrArg Stmt.function part.filled, quiet_append.mpr ⟨?_, part.quiet⟩⟩
      rw [same] at declared ⊢
      exact alike.quiet_declaresKept old kept declared
  | .classDef ⟨name, superclass, methods, classMethods, traits⟩, ρ, r', v, v', parsed, renamed, replaces, simple, new,
      alike, quiet => by
    obtain ⟨rfl, simple⟩ := simple
    simp only [fillStmt, Stmt.names, List.mem_cons, List.mem_append, not_or] at new
    obtain ⟨declared, others⟩ := quiet_append.mp quiet
    obtain ⟨based, members⟩ := quiet_append.mp others
    obtain ⟨ofInstances, -⟩ := quiet_append.mp members
    cases renamed with
    | classDef kept inner own =>
      cases own
      have old : name.lexeme ≠ y := Ne.symm new.1
      have named := alike.setKept old kept
      obtain ⟨sameBase, quietBase⟩ := stays_superclass replaces named kept new.1 new.2.1.1.1 based
      have around : ∀ (base : Option NameRef) (ρ : List Renaming),
          aroundMembers (base.map (located (v.set [name]).scopes)) ρ = aroundMembers base ρ := by
        intro base ρ
        cases base <;> rfl
      have inside : ((superclass.map (located (v.set [name]).scopes)).map (NameRef.rename ρ)).isSome =
          superclass.isSome := by simp
      rw [around] at inner
      have views : ∀ w : View, w.members ((superclass.map (located (v.set [name]).scopes)).map (NameRef.rename ρ)) =
          w.members superclass := by
        intro w
        simp only [View.members, bodyOf, inside]
      have part := stays_functions methods parsed.2.2.1 inner
        (replaces_cons replaces_one (replaces_aroundMembers replaces _)) simple new.2.1.1.2
        (named.members word superclass) ofInstances
      refine ⟨⟨⟨parsed.1.1, trivial⟩, ?_, part.parsed, trivial⟩, ?_, ?_⟩
      · intro ref member
        obtain ⟨before, isBefore, rfl⟩ := List.mem_map.mp member
        exact parsed.2.1 before isBefore
      · simp only [fillStmt, sameBase, views, part.filled, fillFunctions]
      · refine quiet_append.mpr ⟨alike.quiet_declaresKept old kept declared, quiet_append.mpr ⟨quietBase, ?_⟩⟩
        rw [views]
        exact quiet_append.mpr ⟨part.quiet, quiet_nil⟩
  | .traitDef ⟨name, traits, methods⟩, ρ, r', v, v', parsed, renamed, replaces, simple, new, alike, quiet => by
    simp only [fillStmt, Stmt.names, List.mem_cons, List.mem_append, not_or] at new
    obtain ⟨declared, others⟩ := quiet_append.mp quiet
    obtain ⟨included, ofInstances⟩ := quiet_append.mp others
    cases renamed with
    | traitDef kept inner =>
      have old : name.lexeme ≠ y := Ne.symm new.1
      have named := alike.setKept old kept
      have inside : ViewsAlike y ρ ((v.set [name]).inClass .trait) ((v'.set [name]).inClass .trait) :=
        { named with classBody := rfl }
      obtain ⟨same, quietTraits⟩ := stays_refs replaces named new.2.1 included
      have part := stays_functions methods parsed.2 inner (replaces_cons replaces_one replaces) simple new.2.2
        (inside.pushName word.this) ofInstances
      refine ⟨⟨⟨parsed.1.1, trivial⟩, part.parsed⟩, by simp only [fillStmt, same, part.filled], ?_⟩
      exact quiet_append.mpr ⟨alike.quiet_declaresKept old kept declared, quiet_append.mpr ⟨quietTraits, part.quiet⟩⟩
  | .missing, _, _, _, _, parsed, _, _, _, _, _, _ => parsed.elim
termination_by structural s => s

theorem stays_stmts : ∀ body : List Stmt, ∀ {ρ : List Renaming} {rs' : List Stmt} {v v' : View},
    Stmt.AllParsed source body → Stmt.AllRenamed (Replaces x y) ρ (fillStmts v body) rs' → (∀ π ∈ ρ, Replaces x y π) →
    Stmt.AllNoClassMethods body → y ∉ Stmt.allNames (fillStmts v body) → ViewsAlike y ρ v v' →
    Quiet (stmtsNotes v body) → StmtsStay v' rs'
  | [], ρ, rs', v, v', _, renamed, _, _, _, _, _ => by
    cases renamed
    exact ⟨trivial, rfl, quiet_nil⟩
  | s :: rest, ρ, rs', v, v', parsed, renamed, replaces, simple, new, alike, quiet => by
    simp only [fillStmts, Stmt.allNames, List.mem_append, not_or] at new
    obtain ⟨one, two⟩ := quiet_append.mp quiet
    cases renamed with
    | cons head tail =>
      have first := stays_stmt s parsed.1 head replaces simple.1 new.1 alike one
      have behind := alike.set (ne_of_declared new.1)
      rw [← declaredNames_renamed head, declaredNames_fillStmt] at behind
      have others := stays_stmts rest parsed.2 tail replaces simple.2 new.2 behind two
      exact ⟨⟨first.parsed, others.parsed⟩, congrArg₂ List.cons first.filled others.filled,
        quiet_append.mpr ⟨first.quiet, others.quiet⟩⟩
termination_by structural body => body

theorem stays_function : ∀ f : FunDecl, ∀ {context : FunctionContext} {ρ : List Renaming}
    {g' : FunDecl} {v v' : View}, f.Parsed source →
    FunDecl.Renamed (Replaces x y) ρ (fillFunction v context f) g' → (∀ π ∈ ρ, Replaces x y π) →
    f.NoClassMethods → y ∉ (fillFunction v context f).names → ViewsAlike y ρ v v' →
    Quiet (functionNotes v context f) → FunctionStays v' context g'
  | ⟨name, params, body⟩, context, ρ, g', v, v', parsed, renamed, replaces, simple, new, alike, quiet => by
    simp only [fillFunction, FunDecl.names, List.mem_cons, List.mem_append, not_or] at new
    obtain ⟨declared, ran⟩ := quiet_append.mp quiet
    cases renamed with
    | @mk _ π _ _ _ _ isAllowed inner =>
      have old : ∀ param ∈ params.getD [], param.lexeme ≠ y := by
        rintro param member rfl
        exact new.2.1 (List.mem_map_of_mem member)
      have params_eq : (params.map (List.map (Token.rename π))).getD [] = (params.getD []).map (Token.rename π) := by
        cases params <;> rfl
      have inside : ViewsAlike y ρ (v.inFunction context) (v'.inFunction context) := { alike with function := rfl }
      have entered := (inside.push π).set old
      have part := stays_stmts body parsed.2.2 inner (replaces_cons isAllowed replaces) simple new.2.2 entered ran
      refine ⟨⟨⟨parsed.1.1, trivial⟩, ?_, part.parsed⟩, ?_, ?_⟩
      · rw [params_eq]
        intro param member
        obtain ⟨before, isBefore, rfl⟩ := List.mem_map.mp member
        exact ⟨(parsed.2.1 before isBefore).1, trivial⟩
      · rw [fillFunction, params_eq]
        exact congrArg _ part.filled
      · rw [functionNotes, params_eq]
        exact quiet_append.mpr ⟨(inside.push π).quiet_declares old declared, part.quiet⟩
termination_by structural f => f

theorem stays_functions : ∀ fs : List FunDecl, ∀ {kind : Token → FunctionContext}
    {ρ : List Renaming} {gs' : List FunDecl} {v v' : View}, FunDecl.AllParsed source fs →
    FunDecl.AllRenamed (Replaces x y) ρ (fillFunctions v kind fs) gs' → (∀ π ∈ ρ, Replaces x y π) →
    FunDecl.AllNoClassMethods fs → y ∉ FunDecl.allNames (fillFunctions v kind fs) → ViewsAlike y ρ v v' →
    Quiet (functionsNotes v kind fs) → FunctionsStay v' kind gs'
  | [], kind, ρ, gs', v, v', _, renamed, _, _, _, _, _ => by
    cases renamed
    exact ⟨trivial, rfl, quiet_nil⟩
  | ⟨name, params, body⟩ :: rest, kind, ρ, gs', v, v', parsed, renamed, replaces, simple, new, alike, quiet => by
    simp only [fillFunctions, FunDecl.allNames, List.mem_append, not_or] at new
    obtain ⟨one, two⟩ := quiet_append.mp quiet
    cases renamed with
    | cons head tail =>
      have first := stays_function ⟨name, params, body⟩ parsed.1 head replaces simple.1 new.1 alike one
      have others := stays_functions rest parsed.2 tail replaces simple.2 new.2 alike two
      have same : _ = name := head.name_eq
      rw [← same] at first
      exact ⟨⟨first.parsed, others.parsed⟩, congrArg₂ List.cons first.filled others.filled,
        quiet_append.mpr ⟨first.quiet, others.quiet⟩⟩
termination_by structural fs => fs

end

end

end

end Scope

end LoxLang
