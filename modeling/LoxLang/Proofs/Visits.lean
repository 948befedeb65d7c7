import LoxLang.Proofs.Effects

/-!
What a run visits. A node is run from another one exactly if a crash there would be how the other one ends, since no
crash is ever caught. The nodes that one layer of evaluation runs form a list, and a crash at some of them is a crash at
the first of these in the list.
-/

namespace LoxLang

open Eval

/-- A node that is run: with a number of layers, and from a machine. -/
structure Visit where
  fuel : Nat
  point : Point
  machine : Machine

/-- The parts, except that they crash at some nodes. -/
def Parts.crashing (parts : Parts) (crash : Point → Machine → Option Fault) : Parts where
  fuel := parts.fuel
  eval e m :=
    match crash (.eval e) m with
    | none => parts.eval e m
    | some fault => .error (.crashed fault) m
  exec s m :=
    match crash (.exec s) m with
    | none => parts.exec s m
    | some fault => .error (.crashed fault) m

/-- What running a node yields. -/
abbrev Point.Outcome : Point → Type
  | .eval _ => Value
  | .exec _ => Unit

/-- One layer of running a node. -/
def Point.layer (parts : Parts) : (point : Point) → Eval point.Outcome
  | .eval e => evalStep parts e
  | .exec s => execStep parts s

namespace Eval

variable {α β : Type} {parts : Parts} {m : Machine}

/-- A computation runs exactly the nodes of a list, in order: it ends as before if it is made to crash at none of them,
and else with the crash at the first. -/
structure Runs (parts : Parts) (x : Parts → Eval α) (m : Machine) (nodes : List (Point × Machine)) : Prop where
  quiet : ∀ crash, nodes.findSome? (fun node => crash node.1 node.2) = none → x (parts.crashing crash) m = x parts m
  loud : ∀ crash fault, nodes.findSome? (fun node => crash node.1 node.2) = some fault →
    ∃ m', x (parts.crashing crash) m = .error (.crashed fault) m'

/-- There is a list of the nodes that a computation runs. -/
def Ordered (parts : Parts) (x : Parts → Eval α) (m : Machine) : Prop := ∃ nodes, Runs parts x m nodes

theorem ordered_const (x : Eval α) : Ordered parts (fun _ => x) m := ⟨[], fun _ _ => rfl, fun _ _ => nofun⟩

theorem ordered_eval (e : Expr) : Ordered parts (fun p => p.eval e) m := by
  refine ⟨[(.eval e, m)], fun crash none => ?_, fun crash fault some => ?_⟩
  · simp only [List.findSome?_singleton] at none
    simp only [Parts.crashing, none]
  · simp only [List.findSome?_singleton] at some
    exact ⟨m, by simp only [Parts.crashing, some]⟩

theorem ordered_exec (s : Stmt) : Ordered parts (fun p => p.exec s) m := by
  refine ⟨[(.exec s, m)], fun crash none => ?_, fun crash fault some => ?_⟩
  · simp only [List.findSome?_singleton] at none
    simp only [Parts.crashing, none]
  · simp only [List.findSome?_singleton] at some
    exact ⟨m, by simp only [Parts.crashing, some]⟩

variable {x : Parts → Eval α}

theorem Ordered.bind {f : α → Parts → Eval β} (first : Ordered parts x m)
    (second : ∀ a m', x parts m = .ok a m' → Ordered parts (f a) m') :
    Ordered parts (fun p => x p >>= fun a => f a p) m := by
  obtain ⟨nodes, one⟩ := first
  cases ends : x parts m with
  | error =>
    refine ⟨nodes, fun crash none => ?_, fun crash fault some => ?_⟩
    · exact (bind_of_error ((one.quiet crash none).trans ends)).trans (bind_of_error ends).symm
    · obtain ⟨m'', crashed⟩ := one.loud crash fault some
      exact ⟨m'', bind_of_error crashed⟩
  | ok a m' =>
    obtain ⟨more, two⟩ := second a m' ends
    refine ⟨nodes ++ more, fun crash none => ?_, fun crash fault some => ?_⟩
    · rw [List.findSome?_append, Option.or_eq_none_iff] at none
      exact (bind_of_ok ((one.quiet crash none.1).trans ends)).trans
        ((two.quiet crash none.2).trans (bind_of_ok (f := fun a => f a parts) ends).symm)
    · rw [List.findSome?_append, Option.or_eq_some_iff] at some
      rcases some with some | ⟨none, some⟩
      · obtain ⟨m'', crashed⟩ := one.loud crash fault some
        exact ⟨m'', bind_of_error crashed⟩
      · obtain ⟨m'', crashed⟩ := two.loud crash fault some
        exact ⟨m'', (bind_of_ok ((one.quiet crash none).trans ends)).trans crashed⟩

theorem Ordered.through {y : Parts → Eval β} {m₁ : Machine} (inner : Ordered parts x m₁)
    (same : ∀ p q, x p m₁ = x q m₁ → y p m = y q m)
    (crashes : ∀ p fault m', x p m₁ = .error (.crashed fault) m' → ∃ m'', y p m = .error (.crashed fault) m'') :
    Ordered parts y m := by
  obtain ⟨nodes, runs⟩ := inner
  refine ⟨nodes, fun crash none => same _ _ (runs.quiet crash none), fun crash fault some => ?_⟩
  obtain ⟨m', crashed⟩ := runs.loud crash fault some
  exact crashes _ fault m' crashed

theorem Ordered.within {chain : Frames} (inner : Ordered parts x { m with scope := chain }) :
    Ordered parts (fun p => within chain (x p)) m := by
  refine inner.through (fun p q same => ?_) fun p fault m' crashed => ⟨{ m' with scope := m.scope }, ?_⟩
  · simp only [Eval.within, same]
  · simp only [Eval.within, crashed]

theorem Ordered.catchReturn {x : Parts → Eval Unit} (otherwise : Eval Value) (inner : Ordered parts x m) :
    Ordered parts (fun p => catchReturn (x p) otherwise) m := by
  refine inner.through (fun p q same => ?_) fun p fault m' crashed => ⟨m', ?_⟩
  · simp only [Eval.catchReturn, same]
  · simp only [Eval.catchReturn, crashed]

theorem Ordered.catchBreak {x : Parts → Eval Unit} (inner : Ordered parts x m) :
    Ordered parts (fun p => catchBreak (x p)) m := by
  refine inner.through (fun p q same => ?_) fun p fault m' crashed => ⟨m', ?_⟩
  · simp only [Eval.catchBreak, same]
  · simp only [Eval.catchBreak, crashed]

theorem ordered_runAll (body : List Stmt) (m : Machine) : Ordered parts (fun p => runAll p.exec body) m := by
  induction body generalizing m with
  | nil => exact ordered_const _
  | cons s _ ih => exact .bind (ordered_exec s) fun _ m₁ _ => ih m₁

theorem Composed.ordered {R : Machine → Machine → Prop} {E : Extent} (composed : Composed R E x)
    (m : Machine) : Ordered parts x m := by
  induction composed generalizing m with
  | step | exit => exact ordered_const _
  | eval => exact ordered_eval _
  | exec => exact ordered_exec _
  | bind _ _ first second => exact .bind (first m) fun a m' _ => second a m'
  | within => exact (ordered_runAll _ _).within
  | call => exact (ordered_runAll _ _).within.catchReturn _
  | catchBreak => exact (ordered_exec _).catchBreak
  | fuelled _ inner =>
    -- Parts that crash have the same number of layers.
    obtain ⟨nodes, runs⟩ := inner parts.fuel m
    exact ⟨nodes, runs.quiet, runs.loud⟩

/-- A computation that is composed in any way. -/
abbrev Layered (x : Parts → Eval α) : Prop := Composed (fun _ _ => True) {} x

theorem ordered_evalAll (es : List Expr) (m : Machine) : Ordered parts (fun p => evalAll p.eval es) m :=
  Composed.ordered (composed_evalAll lasting_any (by simp) : Layered _) m

theorem ordered_layer (point : Point) : Ordered parts (fun p => point.layer p) m := by
  have layered : Layered fun p => point.layer p := by
    cases point with
    | eval e => exact composed_evalStep lasting_any e
    | exec s => exact composed_execStep lasting_any s fun decl _ => step_declareClass lasting_any (fun _ _ => trivial) decl
  exact layered.ordered m

end Eval

/-! ### The nodes that are run from another node, and those that are run at all -/

/-- The parts of a layer of evaluation. -/
def Parts.ofFuel (fuel : Nat) : Parts := ⟨fuel, evaluate fuel, execute fuel⟩

/-- Running a node within a number of layers. -/
def Point.run (fuel : Nat) : (point : Point) → Eval point.Outcome
  | .eval e => evaluate fuel e
  | .exec s => execute fuel s

theorem Point.run_succ (fuel : Nat) (point : Point) : point.run (fuel + 1) = point.layer (.ofFuel fuel) := by
  cases point <;> rfl

open Classical in
/-- A crash at one node only. -/
noncomputable def Visit.crash (w : Visit) (fault : Fault) (point : Point) (machine : Machine) : Option Fault :=
  if point = w.point ∧ machine = w.machine then some fault else none

/-- The first node runs the second one directly: a crash at the second would be how the first ends. -/
def Visit.Enters (v w : Visit) : Prop :=
  v.fuel = w.fuel + 1 ∧ ∀ fault, ∃ m,
    v.point.layer ((Parts.ofFuel w.fuel).crashing (w.crash fault)) v.machine = .error (.crashed fault) m

/-- The nodes that are run when a program is run from a machine: its statements, as long as those before them end
well, and what these run. -/
inductive Reached (program : List Stmt) (fuel : Nat) (start : Machine) : Visit → Prop where
  | statement {before rest : List Stmt} {s : Stmt} {m : Machine} (split : program = before ++ s :: rest)
      (ran : runAll (execute fuel) before start = .ok () m) :
      Reached program fuel start ⟨fuel, .exec s, m⟩
  | inner {v w : Visit} (reached : Reached program fuel start v) (enters : v.Enters w) : Reached program fuel start w

/-- The frame was made for the statements: it was the newest one, and the innermost one in sight, when the first of
them began. -/
def MadeFor (program : List Stmt) (fuel : Nat) (start : Machine) (id : FrameId) (body : List Stmt) (outer : Frames) :
    Prop :=
  ∃ s rest n m, body = s :: rest ∧ Reached program fuel start ⟨n, .exec s, m⟩ ∧ m.scope = id :: outer ∧
    m.frames.size = id + 1

theorem Visit.findSome?_crash {w : Visit} {fault : Fault} {nodes : List (Point × Machine)}
    (member : (w.point, w.machine) ∈ nodes) :
    nodes.findSome? (fun node => w.crash fault node.1 node.2) = some fault := by
  induction nodes with
  | nil => exact absurd member List.not_mem_nil
  | cons node _ ih =>
    by_cases here : node.1 = w.point ∧ node.2 = w.machine
    · simp [crash, here]
    · rcases List.mem_cons.mp member with same | member
      · exact absurd (by simp [← same]) here
      · simpa [crash, here] using ih member

theorem Visit.exists_runs (v : Visit) {n : Nat} (fuel : v.fuel = n + 1) :
    ∃ nodes, Runs (.ofFuel n) (fun parts => v.point.layer parts) v.machine nodes ∧
      ∀ point machine, (point, machine) ∈ nodes ↔ v.Enters ⟨n, point, machine⟩ := by
  have ordered : Ordered (.ofFuel n) (fun parts => v.point.layer parts) v.machine := ordered_layer v.point
  obtain ⟨nodes, runs⟩ := ordered
  refine ⟨nodes, runs, fun point machine => ⟨fun member => ⟨fuel, fun fault => ?_⟩, fun enters => ?_⟩⟩
  · exact runs.loud _ fault (findSome?_crash (w := ⟨n, point, machine⟩) member)
  · -- A crash at a node that is not run would change nothing, so that two crashes would be the same.
    by_cases member : (point, machine) ∈ nodes
    · exact member
    · have nowhere (fault : Fault) :
          nodes.findSome? (fun node => crash ⟨n, point, machine⟩ fault node.1 node.2) = none := by
        refine List.findSome?_eq_none_iff.mpr fun node isNode => if_neg ?_
        rintro ⟨rfl, rfl⟩
        exact member isNode
      obtain ⟨m₁, one⟩ := enters.2 .scopeTooDeep
      obtain ⟨m₂, two⟩ := enters.2 .missingStatement
      exact nomatch one.symm.trans ((runs.quiet _ (nowhere _)).trans ((runs.quiet _ (nowhere _)).symm.trans two))

open Classical in
/-- An alarm goes off at a node that is run and is not good, and something else happens at a node that is not run at
all. -/
noncomputable def Visit.guard (v : Visit) (n : Nat) (Good : Point → Machine → Prop) (alarm other : Fault)
    (point : Point) (machine : Machine) : Option Fault :=
  if v.Enters ⟨n, point, machine⟩ then if Good point machine then none else some alarm else some other

/-- If the alarm never goes off, every node that is run is good, and the guards change nothing. -/
theorem Visit.layer_guarded (v : Visit) {n : Nat} (fuel : v.fuel = n + 1) {Good : Point → Machine → Prop}
    {alarm other : Fault}
    (silent : ∀ m, v.point.layer ((Parts.ofFuel n).crashing (v.guard n Good alarm other)) v.machine ≠
      .error (.crashed alarm) m) :
    (∀ point machine, v.Enters ⟨n, point, machine⟩ → Good point machine) ∧
      v.point.layer ((Parts.ofFuel n).crashing (v.guard n Good alarm other)) v.machine =
        v.point.layer (.ofFuel n) v.machine := by
  obtain ⟨nodes, runs, entered⟩ := v.exists_runs fuel
  have never : nodes.findSome? (fun node => v.guard n Good alarm other node.1 node.2) = none := by
    cases found : nodes.findSome? (fun node => v.guard n Good alarm other node.1 node.2) with
    | none => rfl
    | some fault =>
      obtain ⟨m, crashed⟩ := runs.loud _ fault found
      obtain ⟨node, isNode, same⟩ := List.exists_of_findSome?_eq_some found
      rw [guard, if_pos ((entered node.1 node.2).mp isNode)] at same
      split at same
      · exact nomatch same
      · rw [← Option.some.inj same] at crashed
        exact absurd crashed (silent m)
  refine ⟨fun point machine enters => ?_, runs.quiet _ never⟩
  have fine := List.findSome?_eq_none_iff.mp never (point, machine) ((entered point machine).mpr enters)
  rw [guard, if_pos enters] at fine
  split at fine
  case isTrue good => exact good
  case isFalse => exact nomatch fine

end LoxLang
