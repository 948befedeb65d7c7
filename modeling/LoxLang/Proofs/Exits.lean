import LoxLang.Proofs.Steps

/-!
How exits get out. A break and a return are endings that are caught on the way: a break by the loop whose body ends with
it, a return by the call of a function. So a node ends with a break or a return only if it is one, or if a node that it
runs ends so and it does not catch that.
-/

namespace LoxLang

variable {chain : Frames} {x : Eval Unit} {otherwise : Eval Value}

/-! ### Computations that catch endings -/

namespace Eval

variable {α : Type} {w : Visit} {ending : Ending} {m m' : Machine}

theorem within_of_error {x : Eval α} (ends : x { m with scope := chain } = .error ending m') :
    within chain x m = .error ending { m' with scope := m.scope } := by
  simp only [within, ends]

theorem catchReturn_of_error (ends : x m = .error ending m') (notCaught : ending.isReturn = false) :
    catchReturn x otherwise m = .error ending m' := by
  cases ending with
  | returned => cases notCaught
  | broke | failed | crashed | outOfFuel => simp only [catchReturn, ends]

theorem catchBreak_of_error (ends : x m = .error ending m') (notCaught : ending.isBreak = false) :
    catchBreak x m = .error ending m' := by
  cases ending with
  | broke => cases notCaught
  | returned | failed | crashed | outOfFuel => simp only [catchBreak, ends]

theorem error_of_within {x : Eval α} (ends : within chain x m = .error ending m') :
    ∃ m₁, x { m with scope := chain } = .error ending m₁ := by
  cases ran : x { m with scope := chain } with
  | ok => simp [within, ran] at ends
  | error _ m₁ =>
    obtain ⟨rfl, -⟩ := EStateM.Result.error.inj ((within_of_error ran).symm.trans ends)
    exact ⟨m₁, rfl⟩

theorem error_of_catchReturn (ends : catchReturn x otherwise m = .error ending m') :
    (x m = .error ending m' ∧ ending.isReturn = false) ∨ ∃ m₁, otherwise m₁ = .error ending m' := by
  cases ran : x m with
  | ok _ m₁ => exact .inr ⟨m₁, by simpa only [catchReturn, ran] using ends⟩
  | error other =>
    cases passes : other.isReturn with
    | false =>
      cases (show catchReturn x otherwise m = _ from catchReturn_of_error ran passes).symm.trans ends
      exact .inl ⟨rfl, passes⟩
    | true =>
      cases other <;> cases passes
      simp [catchReturn, ran] at ends

theorem error_of_catchBreak (ends : catchBreak x m = .error ending m') :
    x m = .error ending m' ∧ ending.isBreak = false := by
  cases ran : x m with
  | ok => simp [catchBreak, ran] at ends
  | error other =>
    cases passes : other.isBreak with
    | false =>
      cases (catchBreak_of_error ran passes).symm.trans ends
      exact ⟨rfl, passes⟩
    | true =>
      cases other <;> cases passes
      simp [catchBreak, ran] at ends

theorem exists_of_runAll_error {run : Runner} {body : List Stmt} {m m' : Machine} {ending : Ending}
    (ends : runAll run body m = .error ending m') :
    ∃ before s rest m₁, body = before ++ s :: rest ∧ runAll run before m = .ok () m₁ ∧ run s m₁ = .error ending m' := by
  induction body generalizing m with
  | nil => exact nomatch ends
  | cons s rest ih =>
    cases ran : run s m with
    | error other m₁ =>
      have same : runAll run (s :: rest) m = .error other m₁ := bind_of_error ran
      obtain ⟨rfl, rfl⟩ := EStateM.Result.error.inj (same.symm.trans ends)
      exact ⟨[], s, rest, m, rfl, rfl, ran⟩
    | ok _ m₁ =>
      have later : runAll run (s :: rest) m = runAll run rest m₁ := bind_of_ok ran
      obtain ⟨before, t, behind, m₂, rfl, passed, ended⟩ := ih (later.symm.trans ends)
      exact ⟨s :: before, t, behind, m₂, rfl, (bind_of_ok ran).trans passed, ended⟩

theorem sees_eval {w : Visit} {e : Expr} (point : w.point = .eval e) : Sees w (fun p => p.eval e) w.machine := fun fault =>
  ⟨w.machine, by simp [Parts.crashing, Visit.crash, point]⟩

theorem sees_exec {s : Stmt} (point : w.point = .exec s) : Sees w (fun p => p.exec s) w.machine := fun fault =>
  ⟨w.machine, by simp [Parts.crashing, Visit.crash, point]⟩

theorem Sees.within {α : Type} {x : Parts → Eval α} (sees : Sees w x { m with scope := chain }) :
    Sees w (fun p => within chain (x p)) m := by
  intro fault
  obtain ⟨m', crashed⟩ := sees fault
  exact ⟨{ m' with scope := m.scope }, by simp only [Eval.within, crashed]⟩

theorem sees_runAll {before : List Stmt} (rest : List Stmt) {s : Stmt} (point : w.point = .exec s)
    (ran : runAll (execute w.fuel) before m = .ok () w.machine) :
    Sees w (fun p => runAll p.exec (before ++ s :: rest)) m := by
  induction before generalizing m with
  | nil =>
    obtain rfl : m = w.machine := (EStateM.Result.ok.inj ran).2
    exact (sees_exec point).before
  | cons t _ ih =>
    cases first : execute w.fuel t m with
    | error => exact nomatch (bind_of_error first).symm.trans ran
    | ok => exact Sees.behind (ordered_exec t) first (ih ((bind_of_ok first).symm.trans ran))

theorem Sees.catchReturn {x : Parts → Eval Unit} (sees : Sees w x m) :
    Sees w (fun p => catchReturn (x p) otherwise) m := by
  intro fault
  obtain ⟨m', crashed⟩ := sees fault
  exact ⟨m', catchReturn_of_error crashed rfl⟩

theorem Sees.catchBreak {x : Parts → Eval Unit} (sees : Sees w x m) : Sees w (fun p => catchBreak (x p)) m := by
  intro fault
  obtain ⟨m', crashed⟩ := sees fault
  exact ⟨m', catchBreak_of_error crashed rfl⟩

/-! ### What passes an exit on -/

theorem Sees.runAll_ends {body : List Stmt} (sees : Sees w (fun p => Eval.runAll p.exec body) m) (ends : w.Ends ending) :
    ∃ m', Eval.runAll (execute w.fuel) body m = .error ending m' ∧ ∃ s ∈ body, w.point = .exec s := by
  obtain ⟨before, s, rest, rfl, point, ran⟩ := sees.runAll
  obtain ⟨n, _, machine⟩ := w
  obtain rfl := point
  obtain ⟨m', ended⟩ := ends
  exact ⟨m', runAll_of_error rest ran ended, s, by simp, rfl⟩

variable {R : Machine → Machine → Prop} {E : Extent} {x : Parts → Eval α}

/-- A computation that runs a node ends as the node does, unless it catches that. -/
theorem Composed.ends (composed : Composed R E x) (passes : ∀ s, w.point = .exec s → ¬ E.Caught s ending true)
    (sees : Sees w x m) (ends : w.Ends ending) : ∃ m', x (.ofFuel w.fuel) m = .error ending m' := by
  have notCaught {s : Stmt} {caught : Bool} (isExec : w.point = .exec s) (handled : E.Caught s ending caught) :
      caught = false := by
    cases caught with
    | false => rfl
    | true => exact absurd handled (passes s isExec)
  obtain ⟨n, point, machine⟩ := w
  induction composed generalizing m with
  | step | exit => exact absurd sees (not_sees_const _)
  | eval =>
    obtain ⟨rfl, rfl⟩ := sees.eval
    exact ends
  | exec =>
    obtain ⟨rfl, rfl⟩ := sees.exec
    exact ends
  | bind first _ inFirst inSecond =>
    rcases sees.bind (first.ordered m) with here | ⟨a, m₁, ran, later⟩
    · obtain ⟨m', ended⟩ := inFirst here
      exact ⟨m', bind_of_error ended⟩
    · obtain ⟨m', ended⟩ := inSecond a later
      exact ⟨m', (bind_of_ok ran).trans ended⟩
  | within =>
    obtain ⟨m', ended, -⟩ := sees.of_within.runAll_ends ends
    exact ⟨_, within_of_error ended⟩
  | call _ _ _ caught =>
    obtain ⟨m', ended, s, member, isExec⟩ := sees.of_catchReturn.runAll_ends ends
    exact ⟨_, catchReturn_of_error (within_of_error ended) (notCaught isExec (caught s member ending))⟩
  | catchBreak _ caught =>
    obtain ⟨rfl, rfl⟩ := sees.of_catchBreak
    obtain ⟨m', ended⟩ := ends
    exact ⟨m', catchBreak_of_error ended (notCaught rfl (caught ending))⟩
  | fuelled _ ih => exact ih n fun fault => sees fault

/-- A computation that ends with an exit takes it, or runs a node that ends so and does not catch that. -/
theorem Composed.exits (composed : Composed R E x) {n : Nat} (isExit : ending.isExit = true)
    (ends : x (.ofFuel n) m = .error ending m') :
    E.Exits ending ∨ ∃ point m₁, Sees ⟨n, point, m₁⟩ x m ∧ Visit.Ends ⟨n, point, m₁⟩ ending ∧
      ∀ s, point = .exec s → E.Caught s ending false := by
  induction composed generalizing m m' with
  | step step => cases (step.calm ends).symm.trans isExit
  | exit _ exits =>
    obtain ⟨rfl, -⟩ := EStateM.Result.error.inj ends
    exact .inl exits
  | @eval e => exact .inr ⟨.eval e, m, sees_eval (w := ⟨n, .eval e, m⟩) rfl, ⟨m', ends⟩, by simp⟩
  | @exec s _ caught =>
    refine .inr ⟨.exec s, m, sees_exec (w := ⟨n, .exec s, m⟩) rfl, ⟨m', ends⟩, ?_⟩
    rintro _ ⟨⟩
    exact caught ending
  | @bind _ _ x f first _ inFirst inSecond =>
    cases ran : x (.ofFuel n) m with
    | ok a =>
      refine (inSecond a ((bind_of_ok ran).symm.trans ends)).imp_right ?_
      rintro ⟨point, m₂, sees, rest⟩
      exact ⟨point, m₂, sees.behind (first.ordered m) ran, rest⟩
    | error =>
      cases (bind_of_error ran).symm.trans ends
      refine (inFirst ran).imp_right ?_
      rintro ⟨point, m₂, sees, rest⟩
      exact ⟨point, m₂, sees.before, rest⟩
  | within _ _ caught =>
    obtain ⟨m₁, ended⟩ := error_of_within ends
    obtain ⟨before, s, rest, m₂, rfl, ran, ended⟩ := exists_of_runAll_error ended
    refine .inr ⟨.exec s, m₂, (sees_runAll (w := ⟨n, .exec s, m₂⟩) rest rfl ran).within, ⟨m₁, ended⟩, ?_⟩
    rintro _ ⟨⟩
    exact caught s (by simp) ending
  | call _ step _ caught =>
    rcases error_of_catchReturn ends with ⟨body, passes⟩ | ⟨m₁, other⟩
    · obtain ⟨m₁, ended⟩ := error_of_within body
      obtain ⟨before, s, rest, m₂, rfl, ran, ended⟩ := exists_of_runAll_error ended
      refine .inr ⟨.exec s, m₂, (sees_runAll (w := ⟨n, .exec s, m₂⟩) rest rfl ran).within.catchReturn, ⟨m₁, ended⟩, ?_⟩
      rintro _ ⟨⟩
      exact passes ▸ caught s (by simp) ending
    · cases (step.calm other).symm.trans isExit
  | @catchBreak s _ caught =>
    obtain ⟨ended, passes⟩ := error_of_catchBreak ends
    refine .inr ⟨.exec s, m, (sees_exec (w := ⟨n, .exec s, m⟩) rfl).catchBreak, ⟨m', ended⟩, ?_⟩
    rintro _ ⟨⟩
    exact passes ▸ caught ending
  | fuelled _ ih => exact ih n ends

end Eval

/-! ### Where an exit comes from -/

/-- An exit of a statement that is run from a node gets out of the node: a call catches what returns, and a loop what
breaks. -/
def Point.Passes (ending : Ending) : Point → Prop
  | .eval _ => ∀ value, ending ≠ .returned value
  | .exec s => s.isLoop = true → ending ≠ .broke

/-- A node catches what does not get out of it, and takes an exit if it is one. -/
def Point.extent (point : Point) : Eval.Extent where
  Caught _ ending caught := caught = false ↔ point.Passes ending
  Exits ending := (point = .exec .breakLoop ∧ ending = .broke) ∨
    ∃ keyword value result, point = .exec (.returnValue keyword value) ∧ ending = .returned result

theorem Point.composed_layer (point : Point) : Eval.Composed (fun _ _ => True) point.extent fun p => point.layer p := by
  have lasting := Eval.lasting_any
  cases point with
  | eval e =>
    refine Eval.composed_evalStep lasting e (by simp) (by simp [extent]) (by simp [extent]) ?_
    rintro - s (_ | _ | _ | _ | _) <;> simp [extent, Passes, Ending.isReturn]
  | exec s =>
    refine Eval.composed_execStep lasting s (fun decl _ => Eval.step_declareClass lasting (fun _ _ => trivial) decl)
      (by simp) (by simp [extent]) (by simp [extent]) (by simp [extent]) ?_ ?_ ?_
    · rintro t (_ | _ | _ | _ | _) <;> simp [extent, Passes, Ending.isBreak]
    · rintro rfl
      exact .inl ⟨rfl, rfl⟩
    · rintro keyword value rfl result
      exact .inr ⟨keyword, value, result, rfl, rfl⟩

namespace Visit

variable {v w : Visit} {ending : Ending}

theorem Ends.fuel_pos (ends : v.Ends ending) (isExit : ending.isExit = true) : ∃ n, v.fuel = n + 1 := by
  obtain ⟨fuel, point, machine⟩ := v
  obtain ⟨m, ended⟩ := ends
  cases fuel with
  | succ n => exact ⟨n, rfl⟩
  | zero =>
    cases point with
    | eval e | exec s =>
      obtain ⟨rfl, -⟩ := EStateM.Result.error.inj ended
      exact nomatch isExit

/-- How a node is left, so is the one that runs it, unless that catches the exit. -/
theorem Enters.ends (enters : v.Enters w)
    (passes : ∀ s, w.point = .exec s → v.point.Passes ending) (ends : w.Ends ending) : v.Ends ending := by
  obtain ⟨fuel, point, m⟩ := v
  obtain ⟨rfl, sees⟩ := enters
  have ended := point.composed_layer.ends (fun s isExec caught => Bool.noConfusion (caught.mpr (passes s isExec))) sees ends
  rwa [← Point.run_succ] at ended

/-- A node that ends with an exit is a break or a return, or runs a node that ends so. -/
theorem Ends.inner (ends : v.Ends ending) (isExit : ending.isExit = true) :
    (v.point = .exec .breakLoop ∧ ending = .broke) ∨
      (∃ keyword value result, v.point = .exec (.returnValue keyword value) ∧ ending = .returned result) ∨
      ∃ w, v.Enters w ∧ w.Ends ending ∧ ∀ s, w.point = .exec s → v.point.Passes ending := by
  obtain ⟨n, fuel⟩ := ends.fuel_pos isExit
  obtain ⟨_, point, machine⟩ := v
  obtain rfl : _ = n + 1 := fuel
  obtain ⟨m', ended⟩ := ends
  rw [Point.run_succ] at ended
  rw [← or_assoc]
  refine (point.composed_layer.exits isExit ended).imp_right ?_
  rintro ⟨inner, m₁, sees, ends, caught⟩
  exact ⟨⟨n, inner, m₁⟩, ⟨rfl, sees⟩, ends, fun s isExec => (caught s isExec).mp rfl⟩

/-- Evaluating an expression never ends with a return, by induction on the number of layers: a statement that is run
from it is the body of a call, which catches the return. -/
theorem eval_not_returned (n : Nat) {e : Expr} {m : Machine} {result : Value} :
    ¬ Ends ⟨n, .eval e, m⟩ (.returned result) := by
  induction n generalizing e m with
  | zero =>
    intro ends
    exact nomatch (ends.fuel_pos rfl).choose_spec
  | succ n ih =>
    intro ends
    rcases ends.inner rfl with ⟨isBreak, -⟩ | ⟨_, _, _, isReturn, -⟩ | ⟨w, enters, inner, passes⟩
    · exact nomatch isBreak
    · exact nomatch isReturn
    · obtain ⟨fuel, point, machine⟩ := w
      obtain rfl : n = fuel := Nat.succ.inj enters.1
      cases point with
      | eval => exact ih inner
      | exec s => exact passes s rfl result rfl

end Visit
end LoxLang
