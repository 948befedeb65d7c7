import LoxLang.Proofs.Relining
import LoxLang.Proofs.Resolving

/-!
Computations that mirror others: started in a changed state they end in the changed result. Resolving a program on other
lines fills in the same depths and notes the same, on other lines; so the names of two programs in a row are resolved as
those of one.
-/

namespace LoxLang

/-- What replaces the states and the endings of computations. -/
structure Change (ε σ : Type) where
  state : σ → σ
  ending : ε → ε

namespace Change

variable {ε σ α β α' β' : Type} {w : Change ε σ} {value : α → α'} {other : β → β'}

def result (w : Change ε σ) (value : α → α') : EStateM.Result ε σ α → EStateM.Result ε σ α'
  | .ok a s => .ok (value a) (w.state s)
  | .error e s => .error (w.ending e) (w.state s)

/-- In every changed state the second computation does what replaces what the first one does. -/
def Mirrors (w : Change ε σ) (value : α → α') (x : EStateM ε σ α) (y : EStateM ε σ α') : Prop :=
  ∀ s, y (w.state s) = w.result value (x s)

theorem mirrors_pure {a : α} {b : α'} (same : value a = b) : w.Mirrors value (pure a) (pure b) := by
  intro s
  rw [← same]
  rfl

theorem mirrors_throw {e e' : ε} (same : w.ending e = e') : w.Mirrors value (throw e) (throw e') := by
  intro s
  rw [← same]
  rfl

theorem mirrors_get : w.Mirrors w.state get get := fun _ => rfl

theorem mirrors_modify {f f' : σ → σ} (same : ∀ s, f' (w.state s) = w.state (f s)) :
    w.Mirrors id (modify f) (modify f') := fun s => congrArg (EStateM.Result.ok ()) (same s)

theorem Mirrors.bind {x : EStateM ε σ α} {y : EStateM ε σ α'} {f : α → EStateM ε σ β} {f' : α' → EStateM ε σ β'}
    (first : w.Mirrors value x y) (next : ∀ a, w.Mirrors other (f a) (f' (value a))) :
    w.Mirrors other (x >>= f) (y >>= f') := by
  intro s
  simp only [Bind.bind, EStateM.bind, first s]
  cases x s with
  | ok a s' => exact next a s'
  | error => rfl

theorem Mirrors.ite {p : Prop} [Decidable p] {x x₂ : EStateM ε σ α} {y y₂ : EStateM ε σ α'}
    (yes : w.Mirrors value x y) (no : w.Mirrors value x₂ y₂) :
    w.Mirrors value (if p then x else x₂) (if p then y else y₂) := by
  split
  · exact yes
  · exact no

end Change

namespace Scope

/-! ### Resolving on other lines -/

variable {g : Relining} {v : View}

@[simp]
theorem set_reline (names : List Token) : v.set (names.map (Token.reline g)) = v.set names := by
  simp [View.set, Function.comp_def]

@[simp]
theorem set_reline_one (name : Token) : v.set [name.reline g] = v.set [name] := set_reline [name]

@[simp]
theorem put_reline (name : Token) (isSet : Bool) : v.put (name.reline g) isSet = v.put name isSet := rfl

@[simp]
theorem members_reline (base : Option NameRef) : v.members (base.map (NameRef.reline g)) = v.members base := by
  cases base <;> rfl

@[simp]
theorem quiet_declares_reline (names : List Token) :
    Quiet (v.declares (names.map (Token.reline g))) ↔ Quiet (v.declares names) := by
  induction names generalizing v with
  | nil => rfl
  | cons _ _ ih =>
    rw [List.map_cons, View.declares, View.declares, quiet_append, quiet_append, quiet_reportIf, quiet_reportIf,
      set_reline_one, ih, Token.lexeme_reline]

@[simp]
theorem quiet_extends_reline (name : Token) (base : Option NameRef) :
    Quiet (v.extends_ (name.reline g) (base.map (NameRef.reline g))) ↔ Quiet (v.extends_ name base) := by
  cases base with
  | none => rfl
  | some =>
    rw [Option.map_some, View.extends_, View.extends_, quiet_append, quiet_append, quiet_reportIf, quiet_reportIf,
      quiet_reads, quiet_reads]
    rfl

@[simp]
theorem quiet_refsNotes_reline (refs : List NameRef) :
    Quiet (refsNotes v (refs.map (NameRef.reline g))) ↔ Quiet (refsNotes v refs) := by
  induction refs with
  | nil => rfl
  | cons _ _ ih => simpa [refsNotes, NameRef.reline] using fun _ => ih

theorem declaredNames_reline (s : Stmt) : declaredNames (s.reline g) = (declaredNames s).map (Token.reline g) := by
  cases s with
  | ifElse _ _ no => cases no <;> rfl
  | function decl | classDef decl | traitDef decl => cases decl; rfl
  | _ => rfl

theorem params_reline (params : Option (List Token)) :
    (params.map (List.map (Token.reline g))).getD [] = (params.getD []).map (Token.reline g) := by
  cases params <;> rfl

variable (lines : g.depth = some)
include lines

theorem located_reline (scopes : List Declared) (ref : NameRef) :
    located scopes (ref.reline g) = (located scopes ref).reline g := by
  simp [located, NameRef.reline, lines]

set_option linter.unusedSectionVars false in
mutual

/-- An expression on other lines is filled in the same, on other lines. -/
theorem reline_expr : ∀ e : Expr, fillExpr v (e.reline g) = (fillExpr v e).reline g ∧
    (Quiet (exprNotes v (e.reline g)) ↔ Quiet (exprNotes v e))
  | .binary left _ right | .logical left _ right | .set left _ right => by
    simp [Expr.reline, fillExpr, exprNotes, reline_expr left, reline_expr right]
  | .unary _ inner | .grouping inner | .get inner _ | .assign _ inner _ => by
    simp [Expr.reline, fillExpr, exprNotes, reline_expr inner, lines]
  | .conditional test yes no => by
    simp [Expr.reline, fillExpr, exprNotes, reline_expr test, reline_expr yes, reline_expr no]
  | .literal _ | .var .. | .super .. | .missing => by simp [Expr.reline, fillExpr, exprNotes, lines]
  | .this .. => by simp [Expr.reline, fillExpr, exprNotes, View.thisDepth?, lines]
  | .call callee _ args => by
    simp [Expr.reline, fillExpr, exprNotes, reline_expr callee, reline_exprs args]

theorem reline_exprs : ∀ es : List Expr, fillExprs v (Expr.relineAll g es) = Expr.relineAll g (fillExprs v es) ∧
    (Quiet (exprsNotes v (Expr.relineAll g es)) ↔ Quiet (exprsNotes v es))
  | [] => by simp [Expr.relineAll, fillExprs, exprsNotes]
  | e :: rest => by simp [Expr.relineAll, fillExprs, exprsNotes, reline_expr e, reline_exprs rest]

end

theorem reline_option (e : Option Expr) :
    (e.map (Expr.reline g)).map (fillExpr v) = (e.map (fillExpr v)).map (Expr.reline g) ∧
      (Quiet (optionNotes v (e.map (Expr.reline g))) ↔ Quiet (optionNotes v e)) := by
  cases e <;> simp [optionNotes, reline_expr lines]

set_option linter.unusedSectionVars false in
mutual

/-- A statement on other lines is filled in the same, on other lines, and something is reported only if it was before. -/
theorem reline_stmt : ∀ (s : Stmt) (v : View), fillStmt v (s.reline g) = (fillStmt v s).reline g ∧
    (Quiet (stmtNotes v (s.reline g)) ↔ Quiet (stmtNotes v s))
  | .expression value, _ | .print value, _ => by simp [Stmt.reline, fillStmt, stmtNotes, reline_expr lines value]
  | .var name init, v => by
    have declared : Quiet (v.declares [name.reline g]) ↔ _ := quiet_declares_reline [name]
    simp [Stmt.reline, fillStmt, stmtNotes, declared, reline_option lines init]
  | .block body, v => by simp [Stmt.reline, fillStmt, stmtNotes, reline_stmts body]
  | .ifElse test yes none, v | .whileLoop test yes, v => by
    simp [Stmt.reline, fillStmt, stmtNotes, reline_expr lines test, reline_stmt yes v]
  | .ifElse test yes (some no), v => by
    simp [Stmt.reline, fillStmt, stmtNotes, reline_expr lines test, reline_stmt yes v, reline_stmt no v]
  | .breakLoop, _ | .missing, _ => ⟨rfl, .rfl⟩
  | .returnValue _ value, _ => by
    simp [Stmt.reline, fillStmt, stmtNotes, View.returns, reline_option lines value]
  | .function ⟨name, params, body⟩, v => by
    have declared : Quiet (v.declares [name.reline g]) ↔ _ := quiet_declares_reline [name]
    have inner := reline_function ⟨name, params, body⟩ (v.set [name]) .function
    exact ⟨congrArg Stmt.function inner.1, quiet_append.trans ((and_congr declared inner.2).trans quiet_append.symm)⟩
  | .classDef ⟨name, base, methods, own, traits⟩, v => by
    have declared : Quiet (v.declares [name.reline g]) ↔ _ := quiet_declares_reline [name]
    simp [Stmt.reline, fillStmt, stmtNotes, declared, Function.comp_def, located_reline lines, reline_functions own,
      reline_functions methods _ methodContext fun _ => rfl]
  | .traitDef ⟨name, traits, methods⟩, v => by
    have declared : Quiet (v.declares [name.reline g]) ↔ _ := quiet_declares_reline [name]
    simp [Stmt.reline, fillStmt, stmtNotes, declared, Function.comp_def, located_reline lines, reline_functions methods]

theorem reline_stmts : ∀ (body : List Stmt) (v : View),
    fillStmts v (Stmt.relineAll g body) = Stmt.relineAll g (fillStmts v body) ∧
      (Quiet (stmtsNotes v (Stmt.relineAll g body)) ↔ Quiet (stmtsNotes v body))
  | [], _ => ⟨rfl, .rfl⟩
  | s :: rest, v => by
    simp [Stmt.relineAll, fillStmts, stmtsNotes, reline_stmt s v, declaredNames_reline, reline_stmts rest]

theorem reline_function : ∀ (f : FunDecl) (v : View) (context : FunctionContext),
    fillFunction v context (f.reline g) = (fillFunction v context f).reline g ∧
      (Quiet (functionNotes v context (f.reline g)) ↔ Quiet (functionNotes v context f))
  | ⟨_, _, body⟩, _, _ => by
    simp [FunDecl.reline, fillFunction, functionNotes, params_reline, reline_stmts body]

theorem reline_functions : ∀ (fs : List FunDecl) (v : View) (kind : Token → FunctionContext),
    (∀ name, kind (name.reline g) = kind name) →
    fillFunctions v kind (FunDecl.relineAll g fs) = FunDecl.relineAll g (fillFunctions v kind fs) ∧
      (Quiet (functionsNotes v kind (FunDecl.relineAll g fs)) ↔ Quiet (functionsNotes v kind fs))
  | [], _, _, _ => ⟨rfl, .rfl⟩
  | ⟨name, params, body⟩ :: rest, v, kind, same => by
    have kinds : kind (FunDecl.reline g ⟨name, params, body⟩).name = kind name := same name
    simp [FunDecl.relineAll, fillFunctions, functionsNotes, kinds, reline_function ⟨name, params, body⟩ v,
      reline_functions rest v kind same]

end

end Scope
end LoxLang
