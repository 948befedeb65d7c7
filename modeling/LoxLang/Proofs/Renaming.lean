import LoxLang.Proofs.Effects

/-!
Renaming the variables of local scopes. Every scope around a place can have a renaming of its own, and an occurrence of
a name is renamed with the scope that its depth leads to. Functions, classes and traits keep their names, since they
show them.
-/

namespace LoxLang

/-- What replaces the names of a scope. -/
abbrev Renaming := Equiv.Perm String

variable {ρ : List Renaming}

/-- The names under which methods find their object and the class that their class extends stay. -/
structure Renaming.Proper (π : Renaming) : Prop where
  this : π thisName = thisName
  super : π superName = superName

theorem Renaming.proper_one : Renaming.Proper 1 := ⟨rfl, rfl⟩

/-- The renaming of the scope that a depth leads to, among those of the scopes around a place. Global names stay. -/
def renamingAt (ρ : List Renaming) (depth : Option Nat) : Renaming := (depth.bind (ρ[·]?)).getD 1

/-- The scope that a place is in has a renaming that keeps the name. -/
def KeepsName (ρ : List Renaming) (name : Token) : Prop := renamingAt ρ (some 0) name.lexeme = name.lexeme

theorem renamingAt_of_trivial (trivial : ∀ π ∈ ρ, π = 1) (depth : Option Nat) : renamingAt ρ depth = 1 := by
  cases depth with
  | none => rfl
  | some d =>
    simp only [renamingAt, Option.bind_some]
    cases found : ρ[d]? with
    | none => rfl
    | some π => exact trivial π (List.mem_of_getElem? found)

theorem keepsName_of_trivial (trivial : ∀ π ∈ ρ, π = 1) (name : Token) : KeepsName ρ name := by
  rw [KeepsName, renamingAt_of_trivial trivial]
  rfl

theorem trivial_cons (trivial : ∀ π ∈ ρ, π = 1) : ∀ π ∈ (1 : Renaming) :: ρ, π = 1 := by
  simpa using trivial

/-! ### Renaming a tree -/

def Token.rename (π : Renaming) (t : Token) : Token := { t with lexeme := π t.lexeme }

@[simp]
theorem Token.lexeme_rename (π : Renaming) (t : Token) : (t.rename π).lexeme = π t.lexeme := rfl

theorem Token.rename_one (t : Token) : t.rename 1 = t := rfl

theorem Token.rename_of_keeps {π : Renaming} {t : Token} (keeps : π t.lexeme = t.lexeme) : t.rename π = t := by
  rw [Token.rename, keeps]

section
variable (ρ : List Renaming)

mutual

def Expr.rename : Expr → Expr
  | .binary left op right => .binary left.rename op right.rename
  | .logical left op right => .logical left.rename op right.rename
  | .unary op operand => .unary op operand.rename
  | .conditional test yes no => .conditional test.rename yes.rename no.rename
  | .grouping inner => .grouping inner.rename
  | .literal value => .literal value
  | .var name depth => .var (name.rename (renamingAt ρ depth)) depth
  | .assign name value depth => .assign (name.rename (renamingAt ρ depth)) value.rename depth
  | .call callee paren args => .call callee.rename paren (Expr.renameAll args)
  | .get object name => .get object.rename name
  | .set object name value => .set object.rename name value.rename
  | .this keyword depth => .this (keyword.rename (renamingAt ρ depth)) depth
  | .super keyword method depth => .super (keyword.rename (renamingAt ρ depth)) method depth
  | .missing => .missing

def Expr.renameAll : List Expr → List Expr
  | [] => []
  | e :: rest => e.rename :: Expr.renameAll rest

end

def NameRef.rename (ref : NameRef) : NameRef := ⟨ref.name.rename (renamingAt ρ ref.depth), ref.depth⟩

end

/-- The scopes around the members of a class. One that extends another has a scope for that. -/
def aroundMembers (base : Option NameRef) (ρ : List Renaming) : List Renaming :=
  if base.isSome then 1 :: ρ else ρ

theorem trivial_aroundMembers (trivial : ∀ π ∈ ρ, π = 1) (base : Option NameRef) :
    ∀ π ∈ aroundMembers base ρ, π = 1 := by
  cases base with
  | none => exact trivial
  | some => exact trivial_cons trivial

mutual

/-- A statement in scopes that are renamed. The scopes inside it keep their names. -/
def Stmt.rename (ρ : List Renaming) : Stmt → Stmt
  | .expression value => .expression (value.rename ρ)
  | .print value => .print (value.rename ρ)
  | .var name init => .var (name.rename (renamingAt ρ (some 0))) (init.map (Expr.rename ρ))
  | .block body => .block (Stmt.renameAll (1 :: ρ) body)
  | .ifElse test yes none => .ifElse (test.rename ρ) (yes.rename ρ) none
  | .ifElse test yes (some no) =>
    .ifElse (test.rename ρ) (yes.rename ρ) (some (no.rename ρ))
  | .whileLoop test body => .whileLoop (test.rename ρ) (body.rename ρ)
  | .breakLoop => .breakLoop
  | .returnValue keyword value => .returnValue keyword (value.map (Expr.rename ρ))
  | .function decl => .function (decl.rename ρ)
  | .classDef ⟨name, base, methods, own, traits⟩ =>
    .classDef ⟨name, base.map (NameRef.rename ρ),
      FunDecl.renameAll (1 :: aroundMembers base ρ) methods,
      FunDecl.renameAll (1 :: aroundMembers base ρ) own,
      traits.map (NameRef.rename (aroundMembers base ρ))⟩
  | .traitDef ⟨name, traits, methods⟩ =>
    .traitDef ⟨name, traits.map (NameRef.rename ρ), FunDecl.renameAll (1 :: ρ) methods⟩
  | .missing => .missing

def Stmt.renameAll (ρ : List Renaming) : List Stmt → List Stmt
  | [] => []
  | s :: rest => s.rename ρ :: Stmt.renameAll ρ rest

def FunDecl.rename (ρ : List Renaming) : FunDecl → FunDecl
  | ⟨name, params, body⟩ => ⟨name, params, Stmt.renameAll (1 :: ρ) body⟩

def FunDecl.renameAll (ρ : List Renaming) : List FunDecl → List FunDecl
  | [] => []
  | f :: rest => f.rename ρ :: FunDecl.renameAll ρ rest

end

/-! ### Scopes that are renamed alike -/

section
variable {ρ ρ' : List Renaming}

/-- The scopes around a place are renamed alike. A scope that is not in a list keeps its names. -/
def SameNaming (ρ ρ' : List Renaming) : Prop := ∀ depth, renamingAt ρ depth = renamingAt ρ' depth

theorem SameNaming.cons (same : SameNaming ρ ρ') (π : Renaming) : SameNaming (π :: ρ) (π :: ρ') := by
  intro depth
  cases depth with
  | none => rfl
  | some d =>
    cases d with
    | zero => rfl
    | succ d => exact same (some d)

theorem SameNaming.aroundMembers (same : SameNaming ρ ρ') (base : Option NameRef) :
    SameNaming (aroundMembers base ρ) (LoxLang.aroundMembers base ρ') := by
  cases base with
  | none => exact same
  | some => exact same.cons 1

theorem sameNaming_cons_of_trivial (trivial : ∀ π ∈ ρ, π = 1) (π : Renaming) : SameNaming [π] (π :: ρ) :=
  SameNaming.cons (fun depth => (renamingAt_of_trivial trivial depth).symm ▸ by cases depth <;> rfl) π

variable (same : SameNaming ρ ρ')
include same

set_option linter.unusedSectionVars false in
mutual

theorem Expr.rename_congr : ∀ e : Expr, e.rename ρ = e.rename ρ'
  | .binary left _ right | .logical left _ right | .set left _ right => by
    simp only [Expr.rename, Expr.rename_congr left, Expr.rename_congr right]
  | .unary _ inner | .grouping inner | .get inner _ => by simp only [Expr.rename, Expr.rename_congr inner]
  | .conditional test yes no => by
    simp only [Expr.rename, Expr.rename_congr test, Expr.rename_congr yes, Expr.rename_congr no]
  | .literal _ | .missing => rfl
  | .var _ depth | .this _ depth | .super _ _ depth => by simp only [Expr.rename, same depth]
  | .assign _ value depth => by simp only [Expr.rename, same depth, Expr.rename_congr value]
  | .call callee _ args => by simp only [Expr.rename, Expr.rename_congr callee, Expr.renameAll_congr args]

theorem Expr.renameAll_congr : ∀ es : List Expr, Expr.renameAll ρ es = Expr.renameAll ρ' es
  | [] => rfl
  | e :: rest => by rw [Expr.renameAll, Expr.renameAll, Expr.rename_congr e, Expr.renameAll_congr rest]

end

theorem Expr.rename_eq_of_same : Expr.rename ρ = Expr.rename ρ' := funext (Expr.rename_congr same)

theorem NameRef.rename_eq_of_same : NameRef.rename ρ = NameRef.rename ρ' := by
  funext ref
  rw [NameRef.rename, NameRef.rename, same ref.depth]

end

mutual

theorem Stmt.rename_congr {ρ ρ' : List Renaming} (same : SameNaming ρ ρ') : ∀ s : Stmt, s.rename ρ = s.rename ρ'
  | .expression _ | .print _ | .returnValue .. => by simp only [Stmt.rename, Expr.rename_eq_of_same same]
  | .var .. => by simp only [Stmt.rename, same (some 0), Expr.rename_eq_of_same same]
  | .block body => by simp only [Stmt.rename, Stmt.renameAll_congr (same.cons 1) body]
  | .ifElse _ body none | .whileLoop _ body => by
    simp only [Stmt.rename, Expr.rename_eq_of_same same, Stmt.rename_congr same body]
  | .ifElse _ yes (some no) => by
    simp only [Stmt.rename, Expr.rename_eq_of_same same, Stmt.rename_congr same yes, Stmt.rename_congr same no]
  | .breakLoop | .missing => rfl
  | .function f => by simp only [Stmt.rename, FunDecl.rename_congr same f]
  | .classDef ⟨_, base, methods, own, _⟩ => by
    have members := same.aroundMembers base
    simp only [Stmt.rename, NameRef.rename_eq_of_same same, NameRef.rename_eq_of_same members,
      FunDecl.renameAll_congr (members.cons 1) methods, FunDecl.renameAll_congr (members.cons 1) own]
  | .traitDef ⟨_, _, methods⟩ => by
    simp only [Stmt.rename, NameRef.rename_eq_of_same same, FunDecl.renameAll_congr (same.cons 1) methods]

theorem Stmt.renameAll_congr {ρ ρ' : List Renaming} (same : SameNaming ρ ρ') :
    ∀ body : List Stmt, Stmt.renameAll ρ body = Stmt.renameAll ρ' body
  | [] => rfl
  | s :: rest => by rw [Stmt.renameAll, Stmt.renameAll, Stmt.rename_congr same s, Stmt.renameAll_congr same rest]

theorem FunDecl.rename_congr {ρ ρ' : List Renaming} (same : SameNaming ρ ρ') :
    ∀ f : FunDecl, f.rename ρ = f.rename ρ'
  | ⟨_, _, body⟩ => by rw [FunDecl.rename, FunDecl.rename, Stmt.renameAll_congr (same.cons 1) body]

theorem FunDecl.renameAll_congr {ρ ρ' : List Renaming} (same : SameNaming ρ ρ') :
    ∀ fs : List FunDecl, FunDecl.renameAll ρ fs = FunDecl.renameAll ρ' fs
  | [] => rfl
  | f :: rest => by
    rw [FunDecl.renameAll, FunDecl.renameAll, FunDecl.rename_congr same f, FunDecl.renameAll_congr same rest]

end

/-! ### Where nothing is renamed -/

section
variable {ρ : List Renaming} (trivial : ∀ π ∈ ρ, π = 1)
include trivial

set_option linter.unusedSectionVars false in
mutual

theorem Expr.rename_of_trivial : ∀ e : Expr, e.rename ρ = e
  | .binary left _ right | .logical left _ right | .set left _ right => by
    simp only [Expr.rename, Expr.rename_of_trivial left, Expr.rename_of_trivial right]
  | .unary _ inner | .grouping inner | .get inner _ => by simp only [Expr.rename, Expr.rename_of_trivial inner]
  | .conditional test yes no => by
    simp only [Expr.rename, Expr.rename_of_trivial test, Expr.rename_of_trivial yes, Expr.rename_of_trivial no]
  | .literal _ | .missing => rfl
  | .var .. | .this .. | .super .. => by simp only [Expr.rename, renamingAt_of_trivial trivial, Token.rename_one]
  | .assign _ value _ => by
    simp only [Expr.rename, renamingAt_of_trivial trivial, Token.rename_one, Expr.rename_of_trivial value]
  | .call callee _ args => by
    simp only [Expr.rename, Expr.rename_of_trivial callee, Expr.renameAll_of_trivial args]

theorem Expr.renameAll_of_trivial : ∀ es : List Expr, Expr.renameAll ρ es = es
  | [] => rfl
  | e :: rest => by rw [Expr.renameAll, Expr.rename_of_trivial e, Expr.renameAll_of_trivial rest]

end

theorem Expr.rename_eq_id : Expr.rename ρ = id := funext (Expr.rename_of_trivial trivial)

theorem NameRef.rename_eq_id : NameRef.rename ρ = id := by
  funext ref
  rw [NameRef.rename, renamingAt_of_trivial trivial, Token.rename_one]
  rfl

end

mutual

theorem Stmt.rename_of_trivial {ρ : List Renaming} (trivial : ∀ π ∈ ρ, π = 1) : ∀ s : Stmt, s.rename ρ = s
  | .expression _ | .print _ | .returnValue .. => by
    simp only [Stmt.rename, Expr.rename_eq_id trivial, Option.map_id, id]
  | .var .. => by
    simp only [Stmt.rename, renamingAt_of_trivial trivial, Token.rename_one, Expr.rename_eq_id trivial, Option.map_id, id]
  | .block body => by simp only [Stmt.rename, Stmt.renameAll_of_trivial (trivial_cons trivial) body]
  | .ifElse _ body none | .whileLoop _ body => by
    simp only [Stmt.rename, Expr.rename_eq_id trivial, id, Stmt.rename_of_trivial trivial body]
  | .ifElse _ yes (some no) => by
    simp only [Stmt.rename, Expr.rename_eq_id trivial, id, Stmt.rename_of_trivial trivial yes,
      Stmt.rename_of_trivial trivial no]
  | .breakLoop | .missing => rfl
  | .function decl => by simp only [Stmt.rename, FunDecl.rename_of_trivial trivial decl]
  | .classDef ⟨_, base, methods, own, _⟩ => by
    have members := trivial_aroundMembers trivial base
    simp only [Stmt.rename, NameRef.rename_eq_id trivial, NameRef.rename_eq_id members, Option.map_id, List.map_id, id,
      FunDecl.renameAll_of_trivial (trivial_cons members) methods,
      FunDecl.renameAll_of_trivial (trivial_cons members) own]
  | .traitDef ⟨_, _, methods⟩ => by
    simp only [Stmt.rename, NameRef.rename_eq_id trivial, List.map_id,
      FunDecl.renameAll_of_trivial (trivial_cons trivial) methods]

theorem Stmt.renameAll_of_trivial {ρ : List Renaming} (trivial : ∀ π ∈ ρ, π = 1) :
    ∀ body : List Stmt, Stmt.renameAll ρ body = body
  | [] => rfl
  | s :: rest => by
    rw [Stmt.renameAll, Stmt.rename_of_trivial trivial s, Stmt.renameAll_of_trivial trivial rest]

theorem FunDecl.rename_of_trivial {ρ : List Renaming} (trivial : ∀ π ∈ ρ, π = 1) :
    ∀ f : FunDecl, f.rename ρ = f
  | ⟨_, _, body⟩ => by rw [FunDecl.rename, Stmt.renameAll_of_trivial (trivial_cons trivial) body]

theorem FunDecl.renameAll_of_trivial {ρ : List Renaming} (trivial : ∀ π ∈ ρ, π = 1) :
    ∀ fs : List FunDecl, FunDecl.renameAll ρ fs = fs
  | [] => rfl
  | f :: rest => by
    rw [FunDecl.renameAll, FunDecl.rename_of_trivial trivial f, FunDecl.renameAll_of_trivial trivial rest]

end

/-! ### Trees that differ in the names of local variables -/

section
variable (allowed : Renaming → Prop)

mutual

/-- The second statement is the first one, in scopes that are renamed, and with a renaming that is allowed for every
scope inside it. -/
inductive Stmt.Renamed : List Renaming → Stmt → Stmt → Prop
  | expression {ρ : List Renaming} {value : Expr} : Stmt.Renamed ρ (.expression value) (.expression (value.rename ρ))
  | print {ρ : List Renaming} {value : Expr} : Stmt.Renamed ρ (.print value) (.print (value.rename ρ))
  | var {ρ : List Renaming} {name : Token} {init : Option Expr} :
    Stmt.Renamed ρ (.var name init) (.var (name.rename (renamingAt ρ (some 0))) (init.map (Expr.rename ρ)))
  | block {ρ : List Renaming} {π : Renaming} {body body' : List Stmt} (isAllowed : allowed π)
    (inner : Stmt.AllRenamed (π :: ρ) body body') : Stmt.Renamed ρ (.block body) (.block body')
  | ifThen {ρ : List Renaming} {test : Expr} {s s' : Stmt}
    (yes : Stmt.Renamed ρ s s') :
    Stmt.Renamed ρ (.ifElse test s none) (.ifElse (test.rename ρ) s' none)
  | ifElse {ρ : List Renaming} {test : Expr} {s s' t t' : Stmt}
    (yes : Stmt.Renamed ρ s s') (no : Stmt.Renamed ρ t t') :
    Stmt.Renamed ρ (.ifElse test s (some t)) (.ifElse (test.rename ρ) s' (some t'))
  | whileLoop {ρ : List Renaming} {test : Expr} {body body' : Stmt} (inner : Stmt.Renamed ρ body body') :
    Stmt.Renamed ρ (.whileLoop test body) (.whileLoop (test.rename ρ) body')
  | breakLoop {ρ : List Renaming} : Stmt.Renamed ρ .breakLoop .breakLoop
  | returnValue {ρ : List Renaming} {keyword : Token} {value : Option Expr} :
    Stmt.Renamed ρ (.returnValue keyword value) (.returnValue keyword (value.map (Expr.rename ρ)))
  | function {ρ : List Renaming} {f f' : FunDecl} (kept : KeepsName ρ f.name)
    (inner : FunDecl.Renamed ρ f f') : Stmt.Renamed ρ (.function f) (.function f')
  | classDef {ρ : List Renaming} {name : Token} {base : Option NameRef}
    {methods methods' classMethods own' : List FunDecl} {traits : List NameRef} (kept : KeepsName ρ name)
    (inner : FunDecl.AllRenamed (1 :: aroundMembers base ρ) methods methods')
    (own : FunDecl.AllRenamed (1 :: aroundMembers base ρ) classMethods own') :
    Stmt.Renamed ρ (.classDef ⟨name, base, methods, classMethods, traits⟩)
      (.classDef ⟨name, base.map (NameRef.rename ρ), methods', own',
        traits.map (NameRef.rename (aroundMembers base ρ))⟩)
  | traitDef {ρ : List Renaming} {name : Token} {traits : List NameRef} {methods methods' : List FunDecl}
    (kept : KeepsName ρ name) (inner : FunDecl.AllRenamed (1 :: ρ) methods methods') :
    Stmt.Renamed ρ (.traitDef ⟨name, traits, methods⟩) (.traitDef ⟨name, traits.map (NameRef.rename ρ), methods'⟩)
  | missing {ρ : List Renaming} : Stmt.Renamed ρ .missing .missing

inductive Stmt.AllRenamed : List Renaming → List Stmt → List Stmt → Prop
  | nil {ρ : List Renaming} : Stmt.AllRenamed ρ [] []
  | cons {ρ : List Renaming} {s s' : Stmt} {rest rest' : List Stmt} (first : Stmt.Renamed ρ s s')
    (others : Stmt.AllRenamed ρ rest rest') : Stmt.AllRenamed ρ (s :: rest) (s' :: rest')

/-- The parameters of a function are renamed with the scope of its body. -/
inductive FunDecl.Renamed : List Renaming → FunDecl → FunDecl → Prop
  | mk {ρ : List Renaming} {π : Renaming} {name : Token} {params : Option (List Token)} {body body' : List Stmt}
    (isAllowed : allowed π) (inner : Stmt.AllRenamed (π :: ρ) body body') :
    FunDecl.Renamed ρ ⟨name, params, body⟩ ⟨name, params.map (List.map (Token.rename π)), body'⟩

inductive FunDecl.AllRenamed : List Renaming → List FunDecl → List FunDecl → Prop
  | nil {ρ : List Renaming} : FunDecl.AllRenamed ρ [] []
  | cons {ρ : List Renaming} {f f' : FunDecl} {rest rest' : List FunDecl}
    (first : FunDecl.Renamed ρ f f') (others : FunDecl.AllRenamed ρ rest rest') :
    FunDecl.AllRenamed ρ (f :: rest) (f' :: rest')

end

end

/-- The functions, classes and traits that a statement declares in the scope around it. -/
def Stmt.keptNames : Stmt → List Token
  | .ifElse _ yes none => yes.keptNames
  | .ifElse _ yes (some no) => yes.keptNames ++ no.keptNames
  | .whileLoop _ body => body.keptNames
  | .function decl => [decl.name]
  | .classDef decl => [decl.name]
  | .traitDef decl => [decl.name]
  | _ => []

section
variable {allowed : Renaming → Prop}

theorem keepsName_one_cons (ρ : List Renaming) (name : Token) : KeepsName (1 :: ρ) name := rfl

theorem FunDecl.Renamed.name_eq {f f' : FunDecl} (renamed : FunDecl.Renamed allowed ρ f f') :
    f'.name = f.name := by
  cases renamed
  rfl

theorem FunDecl.Renamed.of_body {π : Renaming} {name : Token} {params : Option (List Token)}
    {body body' : List Stmt} (isAllowed : allowed π) (keeps : ∀ param ∈ params.getD [], π param.lexeme = param.lexeme)
    (inner : Stmt.AllRenamed allowed (π :: ρ) body body') :
    FunDecl.Renamed allowed ρ ⟨name, params, body⟩ ⟨name, params, body'⟩ := by
  have same : params.map (List.map (Token.rename π)) = params := by
    cases params with
    | none => rfl
    | some params =>
      have each : ∀ param ∈ params, param.rename π = id param := fun param member =>
        Token.rename_of_keeps (keeps param member)
      rw [Option.map_some, List.map_congr_left each, List.map_id]
  have renamed : FunDecl.Renamed allowed ρ ⟨name, params, body⟩
      ⟨name, params.map (List.map (Token.rename π)), body'⟩ := .mk isAllowed inner
  rwa [same] at renamed

section
variable (allows : allowed 1)
include allows

set_option linter.unusedSectionVars false in
mutual

/-- A statement that is renamed differs in the names of local variables only, if the scope around it keeps the names of
its functions, classes and traits. -/
theorem Stmt.renamed_rename {ρ : List Renaming} :
    ∀ s : Stmt, (∀ name ∈ s.keptNames, KeepsName ρ name) → Stmt.Renamed allowed ρ s (s.rename ρ)
  | .expression _, _ => .expression
  | .print _, _ => .print
  | .var .., _ => .var
  | .block body, _ => .block allows (Stmt.allRenamed_rename body fun _ _ name _ => keepsName_one_cons ρ name)
  | .ifElse _ yes none, keeps => .ifThen (Stmt.renamed_rename yes keeps)
  | .ifElse _ yes (some no), keeps => by
    simp only [Stmt.keptNames, List.mem_append] at keeps
    exact .ifElse (Stmt.renamed_rename yes fun name member => keeps name (.inl member))
      (Stmt.renamed_rename no fun name member => keeps name (.inr member))
  | .whileLoop _ body, keeps => .whileLoop (Stmt.renamed_rename body keeps)
  | .breakLoop, _ => .breakLoop
  | .returnValue .., _ => .returnValue
  | .function f, keeps =>
    .function (keeps _ (List.mem_singleton_self _)) (FunDecl.renamed_rename f)
  | .classDef ⟨_, _, methods, own, _⟩, keeps =>
    .classDef (keeps _ (List.mem_singleton_self _)) (FunDecl.allRenamed_rename methods) (FunDecl.allRenamed_rename own)
  | .traitDef ⟨_, _, methods⟩, keeps =>
    .traitDef (keeps _ (List.mem_singleton_self _)) (FunDecl.allRenamed_rename methods)
  | .missing, _ => .missing

theorem Stmt.allRenamed_rename {ρ : List Renaming} :
    ∀ body : List Stmt, (∀ s ∈ body, ∀ name ∈ s.keptNames, KeepsName ρ name) →
      Stmt.AllRenamed allowed ρ body (Stmt.renameAll ρ body)
  | [], _ => .nil
  | s :: rest, keeps =>
    .cons (Stmt.renamed_rename s (keeps s List.mem_cons_self))
      (Stmt.allRenamed_rename rest fun s member => keeps s (List.mem_cons_of_mem _ member))

theorem FunDecl.renamed_rename {ρ : List Renaming} :
    ∀ f : FunDecl, FunDecl.Renamed allowed ρ f (f.rename ρ)
  | ⟨_, _, body⟩ =>
    .of_body allows (fun _ _ => rfl) (Stmt.allRenamed_rename body fun _ _ name _ => keepsName_one_cons ρ name)

theorem FunDecl.allRenamed_rename {ρ : List Renaming} :
    ∀ fs : List FunDecl, FunDecl.AllRenamed allowed ρ fs (FunDecl.renameAll ρ fs)
  | [] => .nil
  | f :: rest => .cons (FunDecl.renamed_rename f) (FunDecl.allRenamed_rename rest)

end

end

/-! Where nothing is renamed, every tree is one that differs in nothing from itself. -/

section
variable (allows : allowed 1) {ρ : List Renaming} (trivial : ∀ π ∈ ρ, π = 1)
include allows trivial

theorem Stmt.renamed_refl (s : Stmt) : Stmt.Renamed allowed ρ s s := by
  have renamed := Stmt.renamed_rename allows s fun name _ => keepsName_of_trivial trivial name
  rwa [Stmt.rename_of_trivial trivial] at renamed

theorem Stmt.allRenamed_refl (body : List Stmt) : Stmt.AllRenamed allowed ρ body body := by
  have renamed := Stmt.allRenamed_rename allows body fun _ _ name _ => keepsName_of_trivial trivial name
  rwa [Stmt.renameAll_of_trivial trivial] at renamed

theorem FunDecl.renamed_refl (f : FunDecl) : FunDecl.Renamed allowed ρ f f := by
  have renamed := FunDecl.renamed_rename allows (ρ := ρ) f
  rwa [FunDecl.rename_of_trivial trivial] at renamed

theorem FunDecl.allRenamed_refl (fs : List FunDecl) : FunDecl.AllRenamed allowed ρ fs fs := by
  have renamed := FunDecl.allRenamed_rename allows (ρ := ρ) fs
  rwa [FunDecl.renameAll_of_trivial trivial] at renamed

end

end

end LoxLang
