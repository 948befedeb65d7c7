import LoxLang.Proofs.Exits

/-!
The call that a statement runs in. Every statement that is run is led to, from statement to statement, by a statement of
the program itself or by one of the body of a function that has been called. How the inner statement is left decides how
the call ends.
-/

namespace LoxLang

open Eval

/-! ### From statement to statement -/

/-- A statement is written in another one, and not in a function that is declared there. -/
def Stmt.Holds : Stmt → Stmt → Prop := Relation.ReflTransGen Stmt.Part

namespace Visit

/-- A statement runs another one directly. -/
def Within (v w : Visit) : Prop := v.Enters w ∧ (∃ s, v.point = .exec s) ∧ ∃ t, w.point = .exec t

/-- A statement runs another one, from statement to statement. -/
def Leads : Visit → Visit → Prop := Relation.ReflTransGen Within

/-- A statement runs another one, from statement to statement, and is not in the body of a loop there. -/
def Strays : Visit → Visit → Prop :=
  Relation.ReflTransGen fun v w => v.Within w ∧ ∀ s, v.point = .exec s → s.isLoop = false

/-- A break that is carried out. -/
def Breaks (w : Visit) : Prop := w.point = .exec .breakLoop ∧ w.Ends .broke

variable {v w : Visit} {s t : Stmt} {ending : Ending}

theorem Leads.holds (leads : v.Leads w) (outer : v.point = .exec s) (inner : w.point = .exec t) : s.Holds t := by
  induction leads generalizing t with
  | refl =>
    obtain rfl := Point.exec.inj (outer.symm.trans inner)
    exact .refl
  | tail _ step ih =>
    obtain ⟨enters, ⟨middle, isStmt⟩, -⟩ := step
    exact (ih isStmt).tail (enters.part isStmt inner)

theorem Leads.ends {result : Value} (leads : v.Leads w) (ends : w.Ends (.returned result)) :
    v.Ends (.returned result) := by
  induction leads with
  | refl => exact ends
  | tail _ step ih =>
    obtain ⟨enters, ⟨s, outer⟩, -⟩ := step
    exact ih (enters.ends (fun _ _ => outer ▸ nofun) ends)

theorem Strays.ends (strays : v.Strays w) (ends : w.Ends .broke) : v.Ends .broke := by
  induction strays with
  | refl => exact ends
  | tail _ step ih =>
    obtain ⟨⟨enters, ⟨s, outer⟩, -⟩, noLoop⟩ := step
    exact ih (enters.ends (fun _ _ => outer ▸ fun isLoop => nomatch (noLoop s outer).symm.trans isLoop) ends)

end Visit

/-! ### How a call ends -/

namespace Call

variable {c : Call} {u : Visit}

theorem Enters.point_mem (enters : c.Enters u) : ∃ s ∈ c.function.decl.body, u.point = .exec s := by
  obtain ⟨-, before, s, rest, split, point, -⟩ := enters
  exact ⟨s, by simp [split], point⟩

theorem Enters.body_ends (enters : c.Enters u) {ending : Ending} (ends : u.Ends ending) :
    ∃ m, runAll (execute c.fuel) c.function.decl.body c.entry = .error ending m := by
  obtain ⟨fuel, point, machine⟩ := u
  obtain ⟨rfl, before, s, rest, split, rfl, ran⟩ := enters
  obtain ⟨m, ended⟩ := ends
  rw [split]
  exact ⟨m, runAll_of_error rest ran ended⟩

/-- A call ends as its body does, except that it catches what returns. -/
theorem run_eq (c : Call) :
    c.run =
      match runAll (execute c.fuel) c.function.decl.body c.entry with
      | .ok _ m => withoutReturn c.function { m with scope := c.machine.scope }
      | .error (.returned result) m => .ok result { m with scope := c.machine.scope }
      | .error ending m => .error ending { m with scope := c.machine.scope } := by
  have inside : c.run = catchReturn (within c.entry.scope (runAll (execute c.fuel) c.function.decl.body))
      (withoutReturn c.function) { c.entry with scope := c.machine.scope } := rfl
  rw [inside, catchReturn, within]
  cases runAll (execute c.fuel) c.function.decl.body c.entry with
  | ok => rfl
  | error ending => cases ending <;> rfl

theorem run_of_returned {result : Value} (enters : c.Enters u) (ends : u.Ends (.returned result)) :
    ∃ m, c.run = .ok result m := by
  obtain ⟨m, ended⟩ := enters.body_ends ends
  exact ⟨{ m with scope := c.machine.scope }, by rw [run_eq, ended]⟩

theorem run_of_broke (enters : c.Enters u) (ends : u.Ends .broke) : ∃ m, c.run = .error .broke m := by
  obtain ⟨m, ended⟩ := enters.body_ends ends
  exact ⟨{ m with scope := c.machine.scope }, by rw [run_eq, ended]⟩

theorem exists_of_run_broke {m : Machine} (broke : c.run = .error .broke m) : ∃ u, c.Enters u ∧ u.Ends .broke := by
  rw [run_eq] at broke
  cases body : runAll (execute c.fuel) c.function.decl.body c.entry with
  | ok =>
    rw [body] at broke
    cases (step_withoutReturn lasting_any c.function).calm broke
  | error ending m₁ =>
    rw [body] at broke
    obtain rfl : ending = .broke := by
      cases ending with
      | returned => exact nomatch broke
      | broke | failed | crashed | outOfFuel => exact (EStateM.Result.error.inj broke).1
    obtain ⟨before, s, rest, m₂, split, ran, ended⟩ := exists_of_runAll_error body
    exact ⟨⟨c.fuel, .exec s, m₂⟩, ⟨rfl, before, s, rest, split, rfl, ran⟩, m₁, ended⟩

end Call

/-! ### What a call or a loop runs -/

namespace Eval

variable {w : Visit} {m : Machine}

theorem sees_repeatWhile {test : Expr} {body : Stmt} {value : Value} {n : Nat}
    (point : w.point = .exec body) (tested : evaluate w.fuel test m = .ok value w.machine)
    (holds : value.isTruthy = true) :
    Sees w (fun p => repeatWhile (do return (← p.eval test).isTruthy) (p.exec body) (n + 1)) m := by
  simp only [repeatWhile_succ]
  have tests : Ordered (.ofFuel w.fuel) (fun p => do return (← p.eval test).isTruthy) m :=
    .bind (ordered_eval test) fun _ _ _ => ordered_const _
  have passed : (do return (← evaluate w.fuel test).isTruthy : Eval Bool) m = .ok true w.machine :=
    (bind_of_ok tested).trans (by rw [holds]; rfl)
  refine Sees.behind tests passed (Sees.before fun fault => ?_)
  obtain ⟨m', crashed⟩ := sees_exec point fault
  exact ⟨m', by simp only [catchBreak, crashed]⟩

theorem sees_block (before rest : List Stmt) {s : Stmt} (point : w.point = .exec s)
    (ran : runAll (execute w.fuel) before
      { m with frames := m.frames.push .empty, scope := m.frames.size :: m.scope } = .ok () w.machine) :
    Sees w (fun p => execStep p (.block (before ++ s :: rest))) m := by
  refine Sees.behind (ordered_const _) rfl (Sees.behind (ordered_const _) rfl ?_)
  exact (sees_runAll rest point ran).within

theorem sees_callClosure {f : Closure} {args : List Value} (enters : Call.Enters ⟨w.fuel, f, args, m⟩ w) :
    Sees w (fun p => callClosure p.exec f args) m := by
  obtain ⟨-, before, s, rest, split, point, ran⟩ := enters
  refine Sees.behind (ordered_const _) rfl fun fault => ?_
  obtain ⟨m', crashed⟩ := sees_runAll rest point ran fault
  refine ⟨{ m' with scope := m.scope }, ?_⟩
  simp only [Call.entry] at crashed
  simp only [catchReturn, within]
  rw [show f.decl.body = before ++ s :: rest from split, crashed]

end Eval

theorem Visit.enters_expression {n : Nat} {e : Expr} {m : Machine} :
    Visit.Enters ⟨n + 1, .exec (.expression e), m⟩ ⟨n, .eval e, m⟩ := by
  refine ⟨rfl, fun fault => ⟨m, ?_⟩⟩
  simp [Point.layer, execStep, Parts.crashing, Visit.crash, EStateM.map, discard, Functor.discard, Functor.mapConst]

theorem Visit.enters_return {n : Nat} {keyword : Token} {e : Expr} {m : Machine} :
    Visit.Enters ⟨n + 1, .exec (.returnValue keyword (some e)), m⟩ ⟨n, .eval e, m⟩ := by
  refine ⟨rfl, fun fault => ⟨m, bind_of_error ?_⟩⟩
  simp [evalOption, Parts.crashing, Visit.crash]

theorem Visit.Calls.enters {v u : Visit} {c : Call} (calls : v.Calls c) (enters : c.Enters u) : v.Enters u := by
  obtain ⟨fuel, point, machine⟩ := u
  cases calls with
  | @function n m m₁ m₂ callee paren arguments f args evaluated given enough =>
    obtain rfl : fuel = n := enters.1
    refine ⟨rfl, ?_⟩
    change Sees ⟨fuel, point, machine⟩ (fun p => evalStep p (.call callee paren arguments)) m
    refine Sees.behind (ordered_eval callee) evaluated ?_
    refine Sees.behind (ordered_evalAll arguments m₁) given ?_
    simp only [checkedCall, Value.arity?, if_pos enough]
    exact sees_callClosure enters
  | @initializer n m m₁ m₂ m₃ m₄ callee paren arguments k args id f bound evaluated given enough made found binds =>
    obtain rfl : fuel = n := enters.1
    refine ⟨rfl, ?_⟩
    change Sees ⟨fuel, point, machine⟩ (fun p => evalStep p (.call callee paren arguments)) m
    refine Sees.behind (ordered_eval callee) evaluated ?_
    refine Sees.behind (ordered_evalAll arguments m₁) given ?_
    simp only [checkedCall, Value.arity?, if_pos enough, callValue]
    refine Sees.behind (ordered_const _) made ?_
    simp only [found]
    have called : Sees ⟨fuel, point, machine⟩ (fun p => callMethod p.exec (.closure f) (.object ⟨id, some k⟩) args)
        m₃ := Sees.behind (ordered_const _) binds (sees_callClosure enters)
    refine Sees.before fun fault => ?_
    obtain ⟨m', crashed⟩ := called fault
    exact ⟨m', by simp only [discard, Functor.discard, Functor.mapConst, Function.comp, EStateM.map, crashed]⟩
  | @getter n m m₁ m₂ object name value f evaluated read isGetter =>
    obtain rfl : fuel = n := enters.1
    refine ⟨rfl, ?_⟩
    change Sees ⟨fuel, point, machine⟩ (fun p => evalStep p (.get object name)) m
    refine Sees.behind (ordered_eval object) evaluated (Sees.behind (ordered_const _) read ?_)
    simp only [if_pos isGetter]
    exact sees_callClosure enters

/-- Every statement that is run is led to by a statement of the program, or by one of the body of a function that has
been called. -/
theorem Reached.activation {program : List Stmt} {fuel : Nat} {start : Machine} {w : Visit}
    (reached : Reached program fuel start w) {t : Stmt} (isStmt : w.point = .exec t) :
    (∃ (u : Visit) (s : Stmt), s ∈ program ∧ u.point = .exec s ∧ u.Leads w) ∨
      ∃ v c u, Reached program fuel start v ∧ v.Calls c ∧ c.Enters u ∧ u.Leads w := by
  induction reached generalizing t with
  | @statement before rest s m split ran =>
    exact .inl ⟨_, s, by simp [split], rfl, .refl⟩
  | @inner v w reached enters ih =>
    cases point : v.point with
    | eval =>
      obtain ⟨c, calls, body⟩ := enters.calls point isStmt
      exact .inr ⟨v, c, w, reached, calls, body, .refl⟩
    | exec s =>
      have within : v.Within w := ⟨enters, ⟨s, point⟩, t, isStmt⟩
      rcases ih point with ⟨u, s', member, outer, leads⟩ | ⟨v', c, u, reached', calls, body, leads⟩
      · exact .inl ⟨u, s', member, outer, leads.tail within⟩
      · exact .inr ⟨v', c, u, reached', calls, body, leads.tail within⟩

end LoxLang
