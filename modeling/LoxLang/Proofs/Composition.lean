import LoxLang.Proofs.Lasting
import LoxLang.Proofs.LexicalScopes

/-!
What a layer of evaluation is made of. It runs nodes of the program and takes steps of its own, one after another, some
of them with other frames in sight or up to an ending that is caught. A property of computations that this preserves is a
property of every layer.
-/

namespace LoxLang

inductive Point where
  | eval (e : Expr)
  | exec (s : Stmt)

/-- The expression calls what its operands yield, or reads a property, which may call a getter. -/
def Expr.isCall : Expr → Bool
  | .call .. | .get .. => true
  | _ => false

def Stmt.expressions : Stmt → List Expr
  | .expression value | .print value | .whileLoop value _ | .ifElse value _ _ => [value]
  | .var _ value | .returnValue _ value => value.toList
  | .block _ | .breakLoop | .function _ | .classDef _ | .traitDef _ | .missing => []

/-- The statements that a statement runs with the same frames in sight. -/
def Stmt.branches : Stmt → List Stmt
  | .ifElse _ yes no => yes :: no.toList
  | .whileLoop _ body => [body]
  | _ => []

def Stmt.isLoop : Stmt → Bool
  | .whileLoop .. => true
  | _ => false

def Ending.isReturn : Ending → Bool
  | .returned _ => true
  | _ => false

def Ending.isBreak : Ending → Bool
  | .broke => true
  | _ => false

namespace Eval

/-- The nodes that may be run with the same frames in sight, the statements that may be run with others in sight, the
endings of statements that may be caught or not, and the exits that may be taken. -/
structure Extent where
  Direct : Point → Prop := fun _ => True
  Inside : Stmt → Prop := fun _ => True
  Caught : Stmt → Ending → Bool → Prop := fun _ _ _ => True
  Exits : Ending → Prop := fun _ => True

/-- A computation that runs nodes within an extent, and takes steps which keep a relation. -/
inductive Composed (R : Machine → Machine → Prop) (E : Extent) : {α : Type} → (Parts → Eval α) → Prop where
  | step {α : Type} {x : Eval α} (step : Step R x) : Composed R E fun _ => x
  | exit {α : Type} {ending : Ending} (keeps : Keeps R (throw ending : Eval α)) (exits : E.Exits ending) :
      Composed R E fun _ => (throw ending : Eval α)
  | eval {e : Expr} (direct : E.Direct (.eval e)) : Composed R E fun p => p.eval e
  | exec {s : Stmt} (direct : E.Direct (.exec s)) (caught : ∀ ending, E.Caught s ending false) :
      Composed R E fun p => p.exec s
  | bind {α β : Type} {x : Parts → Eval α} {f : α → Parts → Eval β} (first : Composed R E x)
      (second : ∀ a, Composed R E (f a)) : Composed R E fun p => x p >>= fun a => f a p
  | within {body : List Stmt} (chain : Frames) (inside : ∀ s ∈ body, E.Inside s)
      (caught : ∀ s ∈ body, ∀ ending, E.Caught s ending false) : Composed R E fun p => within chain (runAll p.exec body)
  | call {body : List Stmt} {otherwise : Eval Value} (chain : Frames) (step : Step R otherwise)
      (inside : ∀ s ∈ body, E.Inside s) (caught : ∀ s ∈ body, ∀ ending, E.Caught s ending ending.isReturn) :
      Composed R E fun p => catchReturn (Eval.within chain (runAll p.exec body)) otherwise
  | catchBreak {s : Stmt} (direct : E.Direct (.exec s)) (caught : ∀ ending, E.Caught s ending ending.isBreak) :
      Composed R E fun p => catchBreak (p.exec s)
  | fuelled {α : Type} {x : Nat → Parts → Eval α} (inner : ∀ n, Composed R E (x n)) : Composed R E fun p => x p.fuel p

variable {α : Type} {R : Machine → Machine → Prop} {E : Extent} {Names : String → Prop}

theorem Composed.ite {p : Prop} [Decidable p] {x y : Parts → Eval α} (yes : Composed R E x) (no : Composed R E y) :
    Composed R E fun q => if p then x q else y q := by
  by_cases holds : p
  · simpa only [if_pos holds] using yes
  · simpa only [if_neg holds] using no

section
variable (lasting : Lasting R Names)
include lasting

theorem composed_pure (a : α) : Composed R E fun _ => pure a := .step (step_pure lasting a)

theorem Composed.map {β : Type} {x : Parts → Eval α} (f : α → β) (inner : Composed R E x) :
    Composed R E fun p => f <$> x p := by
  simp only [← bind_pure_comp]
  exact .bind inner fun a => composed_pure lasting (f a)

theorem composed_evalAll {es : List Expr} (direct : ∀ e ∈ es, E.Direct (.eval e)) :
    Composed R E fun p => evalAll p.eval es := by
  induction es with
  | nil => exact composed_pure lasting _
  | cons _ _ ih =>
    simp only [List.forall_mem_cons] at direct
    exact .bind (.eval direct.1) fun _ => .bind (ih direct.2) fun _ => composed_pure lasting _

theorem composed_evalOption {e : Option Expr} (direct : ∀ part ∈ e.toList, E.Direct (.eval part)) :
    Composed R E fun p => evalOption p.eval e := by
  cases e with
  | none => exact composed_pure lasting _
  | some e => exact .eval (direct e (by simp))

theorem composed_repeatWhile {condition : Expr} {body : Stmt} (test : E.Direct (.eval condition))
    (direct : E.Direct (.exec body)) (caught : ∀ ending, E.Caught body ending ending.isBreak) (n : Nat) :
    Composed R E fun p => repeatWhile (do return (← p.eval condition).isTruthy) (p.exec body) n := by
  induction n with
  | zero => exact .step (step_throw lasting rfl)
  | succ _ ih =>
    simp only [repeatWhile_succ]
    refine .bind (.bind (.eval test) fun _ => composed_pure lasting _) fun _ => .ite ?_ (composed_pure lasting _)
    exact .bind (.catchBreak direct caught) fun _ => .ite ih (composed_pure lasting _)

theorem step_withoutReturn (f : Closure) : Step R (withoutReturn f) :=
  .ite (step_getAt lasting _ _ _) (step_pure lasting _)

section
variable (inside : ∀ s, E.Inside s) (caught : ∀ s ending, E.Caught s ending ending.isReturn)
include inside caught

theorem composed_callClosure (f : Closure) (args : List Value) : Composed R E fun p => callClosure p.exec f args :=
  .bind (.step (step_newFrame lasting _)) fun _ =>
    .call _ (step_withoutReturn lasting f) (fun s _ => inside s) fun s _ => caught s

theorem composed_callMethod (method : Method) (receiver : Value) (args : List Value) :
    Composed R E fun p => callMethod p.exec method receiver args := by
  cases method with
  | closure => exact .bind (.step (step_bindThis lasting _ _)) fun _ => composed_callClosure lasting inside caught _ args
  | builtin => exact .step (step_crash lasting _)

theorem composed_instantiate (c : Class) (args : List Value) : Composed R E fun p => instantiate p.exec c args := by
  refine .bind (.step (step_newObject lasting)) fun id => ?_
  cases c.findMethod? initName with
  | none => exact composed_pure lasting _
  | some method =>
    exact .bind (.map lasting _ (composed_callMethod lasting inside caught method _ args)) fun _ => composed_pure lasting _

theorem composed_checkedCall (paren : Token) (callee : Value) (args : List Value) :
    Composed R E fun p => checkedCall p.exec paren callee args := by
  simp only [checkedCall]
  cases callee.arity? with
  | none => exact .step (step_fail lasting _ _)
  | some =>
    refine .ite ?_ (.step (step_fail lasting _ _))
    cases callee with
    | function f => exact composed_callClosure lasting inside caught f args
    | classObject c => exact composed_instantiate lasting inside caught c args
    | builtin b => exact .step (step_callBuiltin lasting b args)
    | arrayFunction _ access id => exact .step (step_callArrayFunction lasting access id args)
    | _ => exact .step (step_crash lasting _)

theorem composed_getProperty (value : Value) (name : Token) : Composed R E fun p => getProperty p.exec value name := by
  refine .bind (.step (step_readProperty lasting _ _)) fun result => ?_
  cases result with
  | function f => exact .ite (composed_callClosure lasting inside caught f []) (composed_pure lasting _)
  | _ => exact composed_pure lasting _

end

theorem composed_evalStep (e : Expr)
    (allowed : ∀ name value depth, e = .assign name value depth → Names name.lexeme := by simp)
    (operands : ∀ part ∈ e.operands, E.Direct (.eval part) := by simp)
    (inside : e.isCall = true → ∀ s, E.Inside s := by simp)
    (caught : e.isCall = true → ∀ s ending, E.Caught s ending ending.isReturn := by simp) :
    Composed R E fun p => evalStep p e := by
  have operand {part : Expr} (among : part ∈ e.operands := by simp [Expr.operands]) :
      Composed R E fun p => p.eval part := .eval (operands part among)
  cases e with
  | binary => exact .bind operand fun _ => .bind operand fun _ => .step (step_applyBinary lasting _ _ _)
  | logical => exact .bind operand fun _ => .ite (composed_pure lasting _) operand
  | unary => exact .bind operand fun _ => .step (step_applyUnary lasting _ _)
  | conditional => exact .bind operand fun _ => .ite operand operand
  | grouping => exact operand
  | assign name _ depth =>
    have binds := fun result => step_assignName lasting name depth result (allowed _ _ _ rfl)
    exact .bind operand fun _ => .step (.bind lasting (binds _) fun _ => step_pure lasting _)
  | call =>
    refine .bind operand fun _ => .bind (composed_evalAll lasting ?_) fun _ =>
      composed_checkedCall lasting (inside rfl) (caught rfl) _ _ _
    exact fun e member => operands e (List.mem_cons_of_mem _ member)
  | get => exact .bind operand fun _ => composed_getProperty lasting (inside rfl) (caught rfl) _ _
  | set =>
    exact .bind operand fun _ => .bind (.step (step_checkHasFields lasting _ _)) fun _ => .bind operand fun _ =>
      .step (.bind lasting (step_setProperty lasting _ _ _) fun _ => step_pure lasting _)
  | literal | missing => exact composed_pure lasting _
  | var | this => exact .step (step_readName lasting _ _)
  | super => exact .step (step_readSuper lasting _ _)

theorem composed_execStep (s : Stmt) (classes : ∀ decl, s = .classDef decl → Step R (declareClass decl))
    (allowed : ∀ name, Scope.declared? s = some name → Names name := by simp)
    (expressions : ∀ e ∈ s.expressions, E.Direct (.eval e) := by simp)
    (branches : ∀ t ∈ s.branches, E.Direct (.exec t) := by simp)
    (inside : ∀ body, s = .block body → ∀ t ∈ body, E.Inside t := by simp)
    (caught : ∀ t ending, E.Caught t ending (s.isLoop && ending.isBreak) := by simp)
    (breaks : s = .breakLoop → E.Exits .broke := by simp)
    (returns : ∀ keyword value, s = .returnValue keyword value → ∀ result, E.Exits (.returned result) := by simp) :
    Composed R E fun p => execStep p s := by
  have expression {e : Expr} (among : e ∈ s.expressions := by simp [Stmt.expressions]) :
      Composed R E fun p => p.eval e := .eval (expressions e among)
  have branch {t : Stmt} (noLoop : s.isLoop = false) (among : t ∈ s.branches := by simp [Stmt.branches]) :
      Composed R E fun p => p.exec t :=
    .exec (branches t among) fun ending => by simpa [noLoop] using caught t ending
  cases s with
  | expression => exact .map lasting _ expression
  | print =>
    exact .bind expression fun _ =>
      .step (.bind lasting (step_text lasting _) fun _ => step_printLine lasting _)
  | var =>
    exact .bind (composed_evalOption lasting expressions) fun _ => .step (step_define lasting _ _ (allowed _ rfl))
  | block body =>
    exact .bind (.step (step_newFrame lasting _)) fun _ => .bind (.step (step_scope lasting)) fun _ =>
      .within _ (inside body rfl) fun t _ => caught t
  | ifElse _ _ no =>
    refine .bind expression fun _ => .ite (branch rfl) ?_
    cases no with
    | none => exact composed_pure lasting _
    | some => exact branch rfl
  | whileLoop =>
    exact .fuelled fun n => composed_repeatWhile lasting (expressions _ (by simp [Stmt.expressions]))
      (branches _ (by simp [Stmt.branches])) (caught _) n
  | breakLoop => exact .exit (keeps_throw lasting _) (breaks rfl)
  | returnValue =>
    exact .bind (composed_evalOption lasting expressions) fun result =>
      .exit (keeps_throw lasting _) (returns _ _ rfl result)
  | function =>
    exact .step (.bind lasting (step_makeClosure lasting _ _) fun _ => step_define lasting _ _ (allowed _ rfl))
  | classDef decl => exact .step (classes decl rfl)
  | traitDef decl => exact .step (step_declareTrait lasting decl (allowed _ rfl))
  | missing => exact .step (step_crash lasting _)

end

end Eval

end LoxLang
