import LoxLang.Proofs.Visits

/-!
What a node runs directly. A statement runs the statements that are written in it. The body of a function is run by a
call only: by the call of a function, by that of a class, which calls its initializer, or by reading a getter.
-/

namespace LoxLang

open Eval

variable {s : Stmt} {body : List Stmt} {args : List Value}

/-! ### Calls -/

/-- A call of a function: the number of layers for its body, and the machine from which it is made. -/
structure Call where
  fuel : Nat
  function : Closure
  args : List Value
  machine : Machine

namespace Call

def run (c : Call) : EStateM.Result Ending Machine Value :=
  callClosure (execute c.fuel) c.function c.args c.machine

/-- The machine in which the body begins: the parameters are bound in a new frame. -/
def entry (c : Call) : Machine :=
  let names := (c.function.decl.params.getD []).map Token.lexeme
  { c.machine with
    frames := c.machine.frames.push (Bindings.empty.putAll (names.zip c.args))
    scope := c.machine.frames.size :: c.function.frames }

/-- The call runs a statement of its body, after those before it have ended well. -/
def Enters (c : Call) (w : Visit) : Prop :=
  w.fuel = c.fuel ∧ ∃ before s rest, c.function.decl.body = before ++ s :: rest ∧ w.point = .exec s ∧
    Eval.runAll (execute c.fuel) before c.entry = .ok () w.machine

end Call

/-- The calls that a node makes. -/
inductive Visit.Calls : Visit → Call → Prop where
  | function {n : Nat} {m m₁ m₂ : Machine} {callee : Expr} {paren : Token} {arguments : List Expr} {f : Closure}
      {args : List Value} (callee_ : evaluate n callee m = .ok (.function f) m₁)
      (given : evalAll (evaluate n) arguments m₁ = .ok args m₂) (enough : args.length = f.decl.arity) :
      Calls ⟨n + 1, .eval (.call callee paren arguments), m⟩ ⟨n, f, args, m₂⟩
  | initializer {n : Nat} {m m₁ m₂ m₃ m₄ : Machine} {callee : Expr} {paren : Token} {arguments : List Expr} {c : Class}
      {args : List Value} {id : Nat} {f bound : Closure}
      (callee_ : evaluate n callee m = .ok (.classObject c) m₁)
      (given : evalAll (evaluate n) arguments m₁ = .ok args m₂) (enough : args.length = c.arity)
      (made : newObject m₂ = .ok id m₃) (found : c.findMethod? initName = some (.closure f))
      (binds : bindThis f (.object ⟨id, some c⟩) m₃ = .ok bound m₄) :
      Calls ⟨n + 1, .eval (.call callee paren arguments), m⟩ ⟨n, bound, args, m₄⟩
  | getter {n : Nat} {m m₁ m₂ : Machine} {object : Expr} {name : Token} {value : Value} {f : Closure}
      (object_ : evaluate n object m = .ok value m₁)
      (read : readProperty value name m₁ = .ok (.function f) m₂) (getter_ : f.decl.isGetter = true) :
      Calls ⟨n + 1, .eval (.get object name), m⟩ ⟨n, f, [], m₂⟩

/-! ### Computations that run a node -/

namespace Eval

variable {α β : Type} {w : Visit} {m : Machine}

/-- A computation runs a node: a crash there is how it ends. -/
def Sees (w : Visit) (x : Parts → Eval α) (m : Machine) : Prop :=
  ∀ fault, ∃ m', x ((Parts.ofFuel w.fuel).crashing (w.crash fault)) m = .error (.crashed fault) m'

/-- A crash at the node changes nothing. -/
def Ignores (w : Visit) (x : Parts → Eval α) (m : Machine) : Prop :=
  ∀ fault, x ((Parts.ofFuel w.fuel).crashing (w.crash fault)) m = x (.ofFuel w.fuel) m

variable {x : Parts → Eval α}

theorem Ignores.not_sees (ignores : Ignores w x m) : ¬ Sees w x m := by
  intro sees
  obtain ⟨m₁, one⟩ := sees .scopeTooDeep
  obtain ⟨m₂, two⟩ := sees .missingStatement
  rw [ignores] at one two
  exact nomatch one.symm.trans two

theorem Ordered.sees_or_ignores (ordered : Ordered (.ofFuel w.fuel) x m) :
    Sees w x m ∨ Ignores w x m := by
  obtain ⟨nodes, runs⟩ := ordered
  by_cases member : (w.point, w.machine) ∈ nodes
  · exact .inl fun fault => runs.loud _ fault (Visit.findSome?_crash member)
  · refine .inr fun fault => runs.quiet _ (List.findSome?_eq_none_iff.mpr fun node isNode => if_neg ?_)
    rintro ⟨point, machine⟩
    rw [← point, ← machine] at member
    exact member isNode

theorem not_sees_const (x : Eval α) : ¬ Sees w (fun _ => x) m := Ignores.not_sees fun _ => rfl

theorem Sees.eval {e : Expr} (sees : Sees w (fun p => p.eval e) m) : w.point = .eval e ∧ w.machine = m := by
  by_cases same : Point.eval e = w.point ∧ m = w.machine
  · exact ⟨same.1.symm, same.2.symm⟩
  · refine absurd sees (Ignores.not_sees fun fault => ?_)
    simp only [Parts.crashing, Visit.crash, if_neg same]

theorem Sees.exec (sees : Sees w (fun p => p.exec s) m) : w.point = .exec s ∧ w.machine = m := by
  by_cases same : Point.exec s = w.point ∧ m = w.machine
  · exact ⟨same.1.symm, same.2.symm⟩
  · refine absurd sees (Ignores.not_sees fun fault => ?_)
    simp only [Parts.crashing, Visit.crash, if_neg same]

variable {f : α → Parts → Eval β}

theorem Sees.bind (ordered : Ordered (.ofFuel w.fuel) x m)
    (sees : Sees w (fun p => x p >>= fun a => f a p) m) :
    Sees w x m ∨ ∃ a m', x (.ofFuel w.fuel) m = .ok a m' ∧ Sees w (f a) m' := by
  rcases ordered.sees_or_ignores with first | ignores
  · exact .inl first
  · right
    cases ends : x (.ofFuel w.fuel) m with
    | error =>
      have same : Ignores w (fun p => x p >>= fun a => f a p) m := fun fault =>
        (bind_of_error ((ignores fault).trans ends)).trans (bind_of_error ends).symm
      exact absurd sees same.not_sees
    | ok a m' =>
      refine ⟨a, m', rfl, fun fault => ?_⟩
      obtain ⟨m'', crashed⟩ := sees fault
      exact ⟨m'', (bind_of_ok ((ignores fault).trans ends)).symm.trans crashed⟩

theorem Sees.through {y : Parts → Eval β} {m₁ : Machine}
    (ordered : Ordered (.ofFuel w.fuel) x m₁) (same : ∀ p q, x p m₁ = x q m₁ → y p m = y q m) (sees : Sees w y m) :
    Sees w x m₁ := by
  rcases ordered.sees_or_ignores with inner | ignores
  · exact inner
  · exact absurd sees (Ignores.not_sees fun fault => same _ _ (ignores fault))

theorem Sees.before (sees : Sees w x m) :
    Sees w (fun p => x p >>= fun a => f a p) m := by
  intro fault
  obtain ⟨m', crashed⟩ := sees fault
  exact ⟨m', bind_of_error crashed⟩

theorem Sees.behind (ordered : Ordered (.ofFuel w.fuel) x m) {a : α}
    {m' : Machine} (ends : x (.ofFuel w.fuel) m = .ok a m') (sees : Sees w (f a) m') :
    Sees w (fun p => x p >>= fun a => f a p) m := by
  rcases ordered.sees_or_ignores with first | ignores
  · exact first.before
  · intro fault
    obtain ⟨m'', crashed⟩ := sees fault
    exact ⟨m'', (bind_of_ok ((ignores fault).trans ends)).trans crashed⟩

/-! ### Bodies and calls -/

theorem Sees.runAll (sees : Sees w (fun p => runAll p.exec body) m) :
    ∃ before s rest, body = before ++ s :: rest ∧ w.point = .exec s ∧
      Eval.runAll (execute w.fuel) before m = .ok () w.machine := by
  induction body generalizing m with
  | nil => exact absurd sees (not_sees_const _)
  | cons s rest ih =>
    rcases sees.bind (ordered_exec s) with here | ⟨_, m₁, ends, later⟩
    · obtain ⟨point, rfl⟩ := here.exec
      exact ⟨[], s, rest, rfl, point, rfl⟩
    · obtain ⟨before, t, behind, rfl, point, ran⟩ := ih later
      exact ⟨s :: before, t, behind, rfl, point, (bind_of_ok ends).trans ran⟩

theorem Sees.of_within {chain : Frames} (sees : Sees w (fun p => within chain (Eval.runAll p.exec body)) m) :
    Sees w (fun p => Eval.runAll p.exec body) { m with scope := chain } := by
  have inBody : Ordered (.ofFuel w.fuel) (fun p => Eval.runAll p.exec body) { m with scope := chain } :=
    ordered_runAll body _
  exact sees.through inBody fun p q same => by simp only [within, same]

theorem Sees.of_catchReturn {chain : Frames} {otherwise : Eval Value}
    (sees : Sees w (fun p => catchReturn (within chain (Eval.runAll p.exec body)) otherwise) m) :
    Sees w (fun p => Eval.runAll p.exec body) { m with scope := chain } := by
  have inBody : Ordered (.ofFuel w.fuel) (fun p => within chain (Eval.runAll p.exec body)) m :=
    (ordered_runAll body _).within
  exact (sees.through inBody fun p q same => by simp only [catchReturn, same]).of_within

theorem Sees.of_catchBreak (sees : Sees w (fun p => catchBreak (p.exec s)) m) :
    w.point = .exec s ∧ w.machine = m := by
  have inBody : Ordered (.ofFuel w.fuel) (fun p => p.exec s) m := ordered_exec s
  exact (sees.through inBody fun p q same => by simp only [catchBreak, same]).exec

theorem Sees.block (sees : Sees w (fun p => execStep p (.block body)) m) : Sees w (fun p => Eval.runAll p.exec body)
      { m with frames := m.frames.push .empty, scope := m.frames.size :: m.scope } := by
  obtain ⟨_, _, ⟨⟩, sees⟩ := (sees.bind (ordered_const _)).resolve_left (not_sees_const _)
  obtain ⟨_, _, ⟨⟩, sees⟩ := (sees.bind (ordered_const _)).resolve_left (not_sees_const _)
  exact sees.of_within

theorem Sees.callClosure {f : Closure} (sees : Sees w (fun p => callClosure p.exec f args) m) :
    Call.Enters ⟨w.fuel, f, args, m⟩ w := by
  obtain ⟨_, _, ⟨⟩, inner⟩ := (sees.bind (ordered_const _)).resolve_left (not_sees_const _)
  exact ⟨rfl, inner.of_catchReturn.runAll⟩

theorem Sees.evalAll {es : List Expr} (sees : Sees w (fun p => evalAll p.eval es) m) : ∃ e, w.point = .eval e := by
  induction es generalizing m with
  | nil => exact absurd sees (not_sees_const _)
  | cons e rest ih =>
    rcases sees.bind (ordered_eval e) with first | ⟨_, m₁, _, later⟩
    · exact ⟨e, first.eval.1⟩
    · rcases later.bind (ordered_evalAll rest m₁) with others | ⟨_, _, _, nothing⟩
      · exact ih others
      · exact absurd nothing (not_sees_const _)

theorem Sees.instantiate {c : Class} (sees : Sees w (fun p => instantiate p.exec c args) m) :
    ∃ id m₁ f bound m₂, newObject m = .ok id m₁ ∧ c.findMethod? initName = some (.closure f) ∧
      bindThis f (.object ⟨id, some c⟩) m₁ = .ok bound m₂ ∧ Call.Enters ⟨w.fuel, bound, args, m₂⟩ w := by
  obtain ⟨id, m₁, made, inner⟩ := (sees.bind (ordered_const _)).resolve_left (not_sees_const _)
  cases found : c.findMethod? initName with
  | none =>
    simp only [found] at inner
    exact absurd inner (not_sees_const _)
  | some method =>
    simp only [found] at inner
    have calling : Layered fun p => callMethod p.exec method (.object ⟨id, some c⟩) args :=
      composed_callMethod lasting_any (by simp) (by simp) method _ args
    rcases inner.bind ((calling.map lasting_any _).ordered m₁) with called | ⟨_, _, _, nothing⟩
    · have called := called.through (calling.ordered m₁) fun p q same => by simp only [Functor.map, EStateM.map, same]
      cases method with
      | builtin => exact absurd called (not_sees_const _)
      | closure f =>
        obtain ⟨bound, m₂, binds, body⟩ := (called.bind (ordered_const _)).resolve_left (not_sees_const _)
        exact ⟨id, m₁, f, bound, m₂, made, rfl, binds, body.callClosure⟩
    · exact absurd nothing (not_sees_const _)

theorem Sees.checkedCall {paren : Token} {callee : Value}
    (sees : Sees w (fun p => checkedCall p.exec paren callee args) m) :
    callee.arity? = some args.length ∧ Sees w (fun p => callValue p.exec callee args) m := by
  simp only [Eval.checkedCall] at sees
  cases arity : callee.arity? with
  | none =>
    simp only [arity] at sees
    exact absurd sees (not_sees_const _)
  | some n =>
    simp only [arity] at sees
    by_cases enough : args.length = n
    · simp only [if_pos enough] at sees
      exact ⟨by rw [enough], sees⟩
    · simp only [if_neg enough] at sees
      exact absurd sees (not_sees_const _)

theorem Sees.getProperty {value : Value} {name : Token} (sees : Sees w (fun p => getProperty p.exec value name) m) :
    ∃ f m₁, readProperty value name m = .ok (.function f) m₁ ∧ f.decl.isGetter = true ∧
      Call.Enters ⟨w.fuel, f, [], m₁⟩ w := by
  obtain ⟨result, m₁, read, inner⟩ := (sees.bind (ordered_const _)).resolve_left (not_sees_const _)
  cases result with
  | function f =>
    by_cases getter : f.decl.isGetter = true
    · simp only [if_pos getter] at inner
      exact ⟨f, m₁, read, getter, inner.callClosure⟩
    · simp only [if_neg getter] at inner
      exact absurd inner (not_sees_const _)
  | _ => exact absurd inner (not_sees_const _)

/-- A computation runs nodes of its extent, and those that it runs directly after steps which keep a relation. -/
theorem Composed.sees_cases {R Q : Machine → Machine → Prop} {E : Extent} (composed : Composed R E x)
    (enclosing : Enclosing R Q) (execs : ∀ s, E.Direct (.exec s) → KeepsOn (· = .broke) R (execute w.fuel s))
    (sees : Sees w x m) : (E.Direct w.point ∧ R m w.machine) ∨ ∃ s, w.point = .exec s ∧ E.Inside s := by
  obtain ⟨evals, runs⟩ := keeps_evaluate_execute enclosing w.fuel
  induction composed generalizing m with
  | step | exit => exact absurd sees (not_sees_const _)
  | eval direct =>
    obtain ⟨point, rfl⟩ := sees.eval
    exact .inl ⟨point ▸ direct, enclosing.outer.refl _⟩
  | exec direct =>
    obtain ⟨point, rfl⟩ := sees.exec
    exact .inl ⟨point ▸ direct, enclosing.outer.refl _⟩
  | bind first _ inFirst inSecond =>
    rcases sees.bind (first.ordered m) with here | ⟨a, m₁, ends, later⟩
    · exact inFirst here
    · rcases inSecond a later with ⟨direct, related⟩ | inside
      · have keeps := first.keepsOn (W := (· = .broke)) enclosing rfl (p := .ofFuel w.fuel) evals execs runs
        exact .inl ⟨direct, enclosing.outer.trans (keeps.ok ends) related⟩
      · exact .inr inside
  | within _ inside =>
    obtain ⟨before, s, rest, rfl, point, -⟩ := sees.of_within.runAll
    exact .inr ⟨s, point, inside s (by simp)⟩
  | call _ _ inside =>
    obtain ⟨before, s, rest, rfl, point, -⟩ := sees.of_catchReturn.runAll
    exact .inr ⟨s, point, inside s (by simp)⟩
  | catchBreak direct =>
    obtain ⟨point, rfl⟩ := sees.of_catchBreak
    exact .inl ⟨point ▸ direct, enclosing.outer.refl _⟩
  | fuelled _ ih => exact ih w.fuel fun fault => sees fault

end Eval

section
variable {v w : Visit} {e : Expr} {s t : Stmt} {R Q : Machine → Machine → Prop} (enclosing : Enclosing R Q)
include enclosing

/-- An expression runs its operands, and statements only if it calls a function. -/
theorem Visit.Enters.of_eval (enters : v.Enters w) (outer : v.point = .eval e) :
    (∃ part ∈ e.operands, w.point = .eval part ∧ R v.machine w.machine) ∨ ∃ s, w.point = .exec s ∧ e.isCall = true := by
  obtain ⟨fuel, point, m⟩ := v
  obtain ⟨rfl, sees⟩ := enters
  obtain rfl : point = .eval e := outer
  have composed : Composed R { Direct := fun point => ∃ part ∈ e.operands, point = .eval part
                               Inside := fun _ => e.isCall = true } fun p => evalStep p e :=
    composed_evalStep enclosing.outer e (by simp) fun part among => ⟨part, among, rfl⟩
  rcases composed.sees_cases enclosing (by rintro s ⟨_, _, ⟨⟩⟩) sees with ⟨⟨part, among, point⟩, related⟩ | inside
  · exact .inl ⟨part, among, point, related⟩
  · exact .inr inside

/-- A statement runs the expressions and statements that it is made of; if it is a block, in a new frame. -/
theorem Visit.Enters.of_exec (enters : v.Enters w) (outer : v.point = .exec s)
    (execs : ∀ t ∈ s.branches, KeepsOn (· = .broke) R (execute w.fuel t)) :
    (∃ e ∈ s.expressions, w.point = .eval e ∧ R v.machine w.machine) ∨
      (∃ t ∈ s.branches, w.point = .exec t ∧ R v.machine w.machine) ∨
        ∃ body, s = .block body ∧ Sees w (fun p => Eval.runAll p.exec body)
          { v.machine with frames := v.machine.frames.push .empty, scope := v.machine.frames.size :: v.machine.scope } := by
  obtain ⟨fuel, point, m⟩ := v
  obtain ⟨rfl, sees⟩ := enters
  obtain rfl : point = .exec s := outer
  change Sees w (fun p => execStep p s) m at sees
  have general (noClass : ∀ decl, s ≠ .classDef decl) (noBlock : ∀ body, s ≠ .block body) :
      (∃ e ∈ s.expressions, w.point = .eval e ∧ R m w.machine) ∨
        ∃ t ∈ s.branches, w.point = .exec t ∧ R m w.machine := by
    have composed : Composed R
        { Direct := fun point => (∃ e ∈ s.expressions, point = .eval e) ∨ ∃ t ∈ s.branches, point = .exec t
          Inside := fun _ => False } fun p => execStep p s :=
      composed_execStep enclosing.outer s (fun decl same => absurd same (noClass decl)) (by simp)
        (fun e among => .inl ⟨e, among, rfl⟩) (fun t among => .inr ⟨t, among, rfl⟩)
        fun body same => absurd same (noBlock body)
    have runs (t : Stmt) (direct : (∃ e ∈ s.expressions, Point.exec t = .eval e) ∨ ∃ u ∈ s.branches, Point.exec t = .exec u) :
        KeepsOn (· = .broke) R (execute w.fuel t) := by
      obtain ⟨_, _, ⟨⟩⟩ | ⟨_, among, ⟨⟩⟩ := direct
      exact execs t among
    rcases composed.sees_cases enclosing runs sees with
      ⟨⟨e, among, point⟩ | ⟨t, among, point⟩, related⟩ | ⟨_, _, inside⟩
    · exact .inl ⟨e, among, point, related⟩
    · exact .inr ⟨t, among, point, related⟩
    · exact inside.elim
  cases s with
  | block body => exact .inr (.inr ⟨body, rfl, Sees.block sees⟩)
  | classDef => exact absurd sees (not_sees_const _)
  | _ => exact (general (by simp) (by simp)).imp_right .inl

end

/-- A statement that an expression runs stands in the body of a function that is called there. -/
theorem Visit.Enters.calls {v w : Visit} {e : Expr} (enters : v.Enters w) (outer : v.point = .eval e)
    (inner : w.point = .exec s) : ∃ c, v.Calls c ∧ c.Enters w := by
  have isCall : e.isCall = true := by
    rcases enters.of_eval enclosing_scope.self outer with ⟨_, _, isExpr, -⟩ | ⟨_, -, isCall⟩
    · cases isExpr.symm.trans inner
    · exact isCall
  obtain ⟨fuel, point, m⟩ := v
  obtain ⟨rfl, sees⟩ := enters
  obtain rfl : point = .eval e := outer
  have other {e : Expr} (isExpr : w.point = .eval e) : False := nomatch isExpr.symm.trans inner
  change Sees w (fun p => evalStep p e) m at sees
  cases e with
  | call callee _ arguments =>
    rcases sees.bind (ordered_eval callee) with first | ⟨function, m₁, evaluated, later⟩
    · exact (other first.eval.1).elim
    · rcases later.bind (ordered_evalAll arguments m₁) with others | ⟨args, m₂, given, called⟩
      · exact (other others.evalAll.choose_spec).elim
      · obtain ⟨arity, called⟩ := called.checkedCall
        cases function with
        | function => exact ⟨_, .function evaluated given (Option.some.inj arity).symm, called.callClosure⟩
        | classObject =>
          obtain ⟨id, m₃, f, bound, m₄, made, found, binds, body⟩ := called.instantiate
          exact ⟨_, .initializer evaluated given (Option.some.inj arity).symm made found binds, body⟩
        | _ => exact absurd called (not_sees_const _)
  | get object =>
    rcases sees.bind (ordered_eval object) with first | ⟨value, m₁, evaluated, later⟩
    · exact (other first.eval.1).elim
    · obtain ⟨f, m₂, read, getter, body⟩ := later.getProperty
      exact ⟨_, .getter evaluated read getter, body⟩
  | _ => cases isCall

/-! ### Statements inside statements -/

/-- A statement is written directly in another one, and not in a function that is declared there. -/
inductive Stmt.Part : Stmt → Stmt → Prop where
  | block {body : List Stmt} {s : Stmt} (member : s ∈ body) : Part (.block body) s
  | thenBranch {test : Expr} {s : Stmt} {no : Option Stmt} : Part (.ifElse test s no) s
  | elseBranch {test : Expr} {yes s : Stmt} : Part (.ifElse test yes (some s)) s
  | loop {test : Expr} {s : Stmt} : Part (.whileLoop test s) s

/-- How running a node ends, if not with a value. -/
def Visit.Ends (v : Visit) (ending : Ending) : Prop := ∃ m, v.point.run v.fuel v.machine = .error ending m

namespace Eval

variable {w : Visit} {m : Machine}

theorem runAll_of_error {run : Runner} {before : List Stmt} (rest : List Stmt) {m₁ m₂ : Machine} {ending : Ending}
    (ran : Eval.runAll run before m = .ok () m₁) (ends : run s m₁ = .error ending m₂) :
    Eval.runAll run (before ++ s :: rest) m = .error ending m₂ := by
  rw [runAll_append, bind_of_ok ran]
  exact bind_of_error ends

end Eval

theorem Visit.Enters.part {v w : Visit} {t : Stmt} (enters : v.Enters w) (outer : v.point = .exec s)
    (inner : w.point = .exec t) : s.Part t := by
  rcases enters.of_exec enclosing_scope.self outer fun _ _ => ⟨fun _ => trivial, fun _ _ => trivial⟩ with
    ⟨_, _, isExpr, -⟩ | ⟨_, among, point, -⟩ | ⟨body, rfl, sees⟩
  · cases isExpr.symm.trans inner
  · obtain rfl := Point.exec.inj (inner.symm.trans point)
    cases s with
    | ifElse =>
      rcases List.mem_cons.mp among with rfl | among
      · exact .thenBranch
      · obtain rfl := Option.mem_toList.mp among
        exact .elseBranch
    | whileLoop =>
      obtain rfl := List.mem_singleton.mp among
      exact .loop
    | _ => cases among
  · obtain ⟨before, s, rest, rfl, point, -⟩ := sees.runAll
    obtain rfl := Point.exec.inj (inner.symm.trans point)
    exact .block (by simp)

end LoxLang
