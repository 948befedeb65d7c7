import LoxLang.Proofs.Activations

/-!
What lasts to the end of a run. If every step keeps a relation, it holds from each node that is run to the end of every
node around it, and so to the end of the program. A step may depend on the names that it binds.
-/

namespace LoxLang

open Eval

/-- The name that a node binds by itself. -/
def Point.bound? : Point → Option String
  | .eval (.assign name _ _) => some name.lexeme
  | .eval _ => none
  | .exec s => Scope.declared? s

namespace Eval

variable {α β : Type} {T : Machine → Machine → Prop} {Names : String → Prop} {n : Nat} {m : Machine}

/-- If a relation holds across every node that a computation runs, it holds across the computation, and from the end of
each of these nodes to the end of the computation. -/
structure Spans (T : Machine → Machine → Prop) (n : Nat) (x : Parts → Eval α) (m : Machine) : Prop where
  ordered : Ordered (.ofFuel n) x m
  lasts : (∀ point m₁, Sees ⟨n, point, m₁⟩ x m → T m₁ ((point.run n).after m₁)) →
    T m ((x (.ofFuel n)).after m) ∧
      ∀ point m₁, Sees ⟨n, point, m₁⟩ x m → T ((point.run n).after m₁) ((x (.ofFuel n)).after m)

theorem spans_const {x : Eval α} (keeps : Keeps T x) : Spans T n (fun _ => x) m :=
  ⟨ordered_const x, fun _ => ⟨keeps m, fun _ _ sees => absurd sees (not_sees_const x)⟩⟩

section
variable (lasting : Lasting T Names)
include lasting

theorem spans_eval (e : Expr) : Spans T n (fun p => p.eval e) m := by
  have here : Sees ⟨n, .eval e, m⟩ (fun p => p.eval e) m := sees_eval (w := ⟨n, .eval e, m⟩) rfl
  refine ⟨ordered_eval e, fun nodes => ⟨nodes _ _ here, fun point m₁ sees => ?_⟩⟩
  obtain ⟨rfl, rfl⟩ := sees.eval
  exact lasting.refl _

theorem spans_exec (s : Stmt) : Spans T n (fun p => p.exec s) m := by
  have here : Sees ⟨n, .exec s, m⟩ (fun p => p.exec s) m := sees_exec (w := ⟨n, .exec s, m⟩) rfl
  refine ⟨ordered_exec s, fun nodes => ⟨nodes _ _ here, fun point m₁ sees => ?_⟩⟩
  obtain ⟨rfl, rfl⟩ := sees.exec
  exact lasting.refl _

variable {x : Parts → Eval α}

theorem Spans.bind {f : α → Parts → Eval β} (first : Spans T n x m)
    (second : ∀ a m', Spans T n (f a) m') : Spans T n (fun p => x p >>= fun a => f a p) m := by
  refine ⟨first.ordered.bind fun a m' _ => (second a m').ordered, fun nodes => ?_⟩
  obtain ⟨across, fromFirst⟩ := first.lasts fun point m₁ sees => nodes point m₁ sees.before
  cases ends : x (.ofFuel n) m with
  | error =>
    have same : ((x (.ofFuel n)).after m) = (x (.ofFuel n) >>= fun a => f a (.ofFuel n)).after m := by
      simp only [after, bind_of_error ends, ends]
    rw [← same]
    refine ⟨across, fun point m₁ sees => ?_⟩
    rcases sees.bind first.ordered with here | ⟨a, m'', other, -⟩
    · exact fromFirst point m₁ here
    · cases ends.symm.trans other
  | ok a m' =>
    have begins : (x (.ofFuel n)).after m = m' := by simp only [after, ends]
    have same : (x (.ofFuel n) >>= fun a => f a (.ofFuel n)).after m = (f a (.ofFuel n)).after m' := by
      simp only [after, bind_of_ok ends]
    rw [begins] at across fromFirst
    obtain ⟨later, fromSecond⟩ := (second a m').lasts fun point m₁ sees =>
      nodes point m₁ (sees.behind first.ordered ends)
    rw [same]
    refine ⟨lasting.trans across later, fun point m₁ sees => ?_⟩
    rcases sees.bind first.ordered with here | ⟨a', m'', ends', here⟩
    · exact lasting.trans (fromFirst point m₁ here) later
    · cases ends.symm.trans ends'
      exact fromSecond point m₁ here

/-- What is done before and after a computation does not matter, as long as the relation is kept and crashes stay
crashes. -/
theorem Spans.through {y : Parts → Eval β} {m₁ : Machine} (inner : Spans T n x m₁)
    (same : ∀ p q, x p m₁ = x q m₁ → y p m = y q m)
    (crashes : ∀ p fault m', x p m₁ = .error (.crashed fault) m' → ∃ m'', y p m = .error (.crashed fault) m'')
    (enter : T m m₁) (leave : T ((x (.ofFuel n)).after m₁) ((y (.ofFuel n)).after m)) : Spans T n y m := by
  refine ⟨inner.ordered.through same crashes, fun nodes => ?_⟩
  obtain ⟨across, fromInner⟩ := inner.lasts fun point m₂ sees => nodes point m₂ fun fault => by
    obtain ⟨m', crashed⟩ := sees fault
    exact crashes _ fault m' crashed
  refine ⟨lasting.trans enter (lasting.trans across leave), fun point m₂ sees => ?_⟩
  exact lasting.trans (fromInner point m₂ (sees.through inner.ordered same)) leave

theorem Spans.catchReturn {x : Parts → Eval Unit} {otherwise : Eval Value} (keeps : Keeps T otherwise)
    (inner : Spans T n x m) : Spans T n (fun p => catchReturn (x p) otherwise) m := by
  refine inner.through lasting (fun p q same => ?_) (fun p fault m' crashed => ⟨m', ?_⟩) (lasting.refl m) ?_
  · simp only [Eval.catchReturn, same]
  · simp only [Eval.catchReturn, crashed]
  · simp only [after, Eval.catchReturn]
    cases x (.ofFuel n) m with
    | ok _ m' => exact keeps m'
    | error ending m' => cases ending <;> exact lasting.refl m'

theorem Spans.catchBreak {x : Parts → Eval Unit} (inner : Spans T n x m) :
    Spans T n (fun p => catchBreak (x p)) m := by
  refine inner.through lasting (fun p q same => ?_) (fun p fault m' crashed => ⟨m', ?_⟩) (lasting.refl m) ?_
  · simp only [Eval.catchBreak, same]
  · simp only [Eval.catchBreak, crashed]
  · simp only [after, Eval.catchBreak]
    cases x (.ofFuel n) m with
    | ok _ m' => exact lasting.refl m'
    | error ending m' => cases ending <;> exact lasting.refl m'

theorem spans_runAll (body : List Stmt) (m : Machine) : Spans T n (fun p => runAll p.exec body) m := by
  induction body generalizing m with
  | nil => exact spans_const (keeps_pure lasting _)
  | cons s _ ih => exact .bind lasting (spans_exec lasting s) fun _ m₁ => ih m₁

section
variable (rescope : ∀ m chain, T m { m with scope := chain })
include rescope

theorem Spans.within {chain : Frames} (inner : Spans T n x { m with scope := chain }) :
    Spans T n (fun p => within chain (x p)) m := by
  refine inner.through lasting (fun p q same => ?_)
    (fun p fault m' crashed => ⟨{ m' with scope := m.scope }, ?_⟩) (rescope m chain) ?_
  · simp only [Eval.within, same]
  · simp only [Eval.within, crashed]
  · simp only [after, Eval.within]
    cases x (.ofFuel n) { m with scope := chain } <;> exact rescope _ _

theorem Composed.spans {E : Extent} (composed : Composed T E x) (m : Machine) : Spans T n x m := by
  induction composed generalizing m with
  | step step => exact spans_const step.keeps
  | exit keeps => exact spans_const keeps
  | eval => exact spans_eval lasting _
  | exec => exact spans_exec lasting _
  | bind _ _ first second => exact .bind lasting (first m) second
  | within => exact (spans_runAll lasting _ _).within lasting rescope
  | call _ step => exact ((spans_runAll lasting _ _).within lasting rescope).catchReturn lasting step.keeps
  | catchBreak => exact (spans_exec lasting _).catchBreak lasting
  | fuelled inner spans => exact ⟨(Composed.fuelled inner).ordered m, (spans n m).lasts⟩

end
end
end Eval

/-! ### Runs -/

section
variable {T : Machine → Machine → Prop} {Names : String → Prop} {program : List Stmt} {fuel : Nat} {start : Machine}
variable (lasting : Lasting T Names) (rescope : ∀ m chain, T m { m with scope := chain })
variable (allowed : ∀ v, Reached program fuel start v → ∀ name, v.point.bound? = some name → Names name)
include lasting rescope allowed

/-- A layer that is run keeps the relation, and so does what it does behind each node that it runs. -/
theorem Reached.lasts_layer {n : Nat} {point : Point} {m : Machine} (reached : Reached program fuel start ⟨n + 1, point, m⟩)
    (nodes : ∀ w, Visit.Enters ⟨n + 1, point, m⟩ w → T w.machine ((w.point.run w.fuel).after w.machine)) :
    T m ((point.run (n + 1)).after m) ∧
      ∀ w, Visit.Enters ⟨n + 1, point, m⟩ w → T ((w.point.run w.fuel).after w.machine) ((point.run (n + 1)).after m) := by
  have spans : Spans T n (fun p => point.layer p) m := by
    cases point with
    | eval e =>
      have composed : Composed T {} fun p => evalStep p e := by
        refine composed_evalStep lasting e ?_
        rintro name value depth rfl
        exact allowed _ reached _ rfl
      exact composed.spans lasting rescope m
    | exec s =>
      have composed : Composed T {} fun p => execStep p s := by
        refine composed_execStep lasting s ?_ (allowed _ reached)
        rintro decl rfl
        exact step_declareClass lasting rescope decl (allowed _ reached _ rfl)
      exact composed.spans lasting rescope m
  obtain ⟨across, behind⟩ := spans.lasts fun inner m₁ sees => nodes ⟨n, inner, m₁⟩ ⟨rfl, sees⟩
  rw [Point.run_succ]
  refine ⟨across, fun w enters => ?_⟩
  obtain ⟨k, inner, m₁⟩ := w
  obtain ⟨same, sees⟩ := enters
  obtain rfl : n = k := Nat.succ.inj same
  exact behind inner m₁ sees

theorem Reached.lasts_across {v : Visit} (reached : Reached program fuel start v) :
    T v.machine ((v.point.run v.fuel).after v.machine) := by
  obtain ⟨n, point, m⟩ := v
  induction n generalizing point m with
  | zero => cases point <;> exact lasting.refl m
  | succ n ih =>
    refine (reached.lasts_layer lasting rescope allowed fun w enters => ?_).1
    obtain ⟨k, inner, m₁⟩ := w
    obtain rfl : n = k := Nat.succ.inj enters.1
    exact ih inner m₁ (reached.inner enters)

/-- What lasts holds from the end of a statement of a program to the end of the program. -/
theorem Reached.lasts_statements {before rest : List Stmt} {s : Stmt} {m : Machine} (split : program = before ++ s :: rest)
    (ran : runAll (execute fuel) before start = .ok () m) :
    T ((execute fuel s).after m) ((runAll (execute fuel) (s :: rest)).after m) := by
  cases ends : execute fuel s m with
  | error _ m' =>
    simp only [after, runAll, bind_of_error ends, ends]
    exact lasting.refl m'
  | ok u m' =>
    have same : runAll (execute fuel) (s :: rest) m = runAll (execute fuel) rest m' :=
      bind_of_ok ends
    simp only [after, same, ends]
    cases rest with
    | nil => exact lasting.refl m'
    | cons next rest =>
      have further : program = (before ++ [s]) ++ next :: rest := by rw [split, List.append_assoc, List.singleton_append]
      have passed : runAll (execute fuel) (before ++ [s]) start = .ok () m' := by
        rw [runAll_append, bind_of_ok ran]
        exact bind_of_ok ends
      have across := Reached.lasts_across lasting rescope allowed (.statement further passed)
      exact lasting.trans across (lasts_statements further passed)
termination_by rest.length

/-- What lasts holds from the end of every node that is run to the end of the program. -/
theorem Reached.lasts_behind {v : Visit} (reached : Reached program fuel start v) :
    T ((v.point.run v.fuel).after v.machine) ((runAll (execute fuel) program).after start) := by
  induction reached with
  | @statement before rest s m split ran =>
    have whole : runAll (execute fuel) program start = runAll (execute fuel) (s :: rest) m := by
      rw [split, runAll_append, bind_of_ok ran]
    simpa only [Point.run, after, whole] using Reached.lasts_statements lasting rescope allowed split ran
  | @inner v w reached enters ih =>
    obtain ⟨k, point, m⟩ := v
    obtain rfl : k = w.fuel + 1 := enters.1
    refine lasting.trans ((reached.lasts_layer lasting rescope allowed fun u inner => ?_).2 w enters) ih
    exact (reached.inner inner).lasts_across lasting rescope allowed

/-- What lasts holds from every node that is run to the end of the program. -/
theorem Reached.lasts {v : Visit} (reached : Reached program fuel start v) :
    T v.machine ((runAll (execute fuel) program).after start) :=
  lasting.trans (reached.lasts_across lasting rescope allowed) (reached.lasts_behind lasting rescope allowed)

end
end LoxLang
