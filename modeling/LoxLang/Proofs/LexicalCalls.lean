import LoxLang.Proofs.Activations
import LoxLang.Proofs.StatementScopes

/-!
What a call runs of its own. A node runs the expressions and the statements that are written directly in it with the
frames in sight that it has itself, except that a block puts one more in sight; only a call runs what is written
elsewhere. So what is written in the body of a function, or in a function that is declared there, is run with the frames
of that function outside of a few others.
-/

namespace LoxLang

/-! ### What is run with the same frames in sight -/

namespace Eval

variable {w : Visit} {m : Machine}

theorem keepsOn_scope_execute (n : Nat) (s : Stmt) :
    KeepsOn (· = .broke) (fun m m' => m'.scope = m.scope) (execute n s) := by
  constructor
  · intro m u m' ends
    have settled := (settles_execute n s).settled m
    rwa [ends] at settled
  · rintro m _ m' ends rfl
    have settled := (settles_execute n s).settled m
    rw [ends] at settled
    rcases settled with kept | ⟨isError, -⟩
    · exact kept
    · cases isError

theorem scope_of_runAll {n : Nat} {body : List Stmt} {m' : Machine} (ran : runAll (execute n) body m = .ok () m') :
    m'.scope = m.scope := by
  induction body generalizing m with
  | nil =>
    cases ran
    rfl
  | cons s _ ih =>
    cases ends : execute n s m with
    | error => cases (bind_of_error ends).symm.trans ran
    | ok =>
      exact (ih ((bind_of_ok ends).symm.trans ran)).trans ((keepsOn_scope_execute n s).ok ends)

end Eval

namespace Visit.Enters

variable {v w : Visit}

theorem operand {e part : Expr} (enters : v.Enters w) (outer : v.point = .eval e) (inner : w.point = .eval part) :
    part ∈ e.operands ∧ w.machine.scope = v.machine.scope := by
  rcases enters.of_eval Eval.enclosing_scope outer with ⟨other, among, point, same⟩ | ⟨s, isStmt, -⟩
  · obtain rfl := Point.eval.inj (inner.symm.trans point)
    exact ⟨among, same⟩
  · cases isStmt.symm.trans inner

theorem expression {s : Stmt} {e : Expr} (enters : v.Enters w) (outer : v.point = .exec s) (inner : w.point = .eval e) :
    e ∈ s.expressions ∧ w.machine.scope = v.machine.scope := by
  rcases enters.of_exec Eval.enclosing_scope outer fun t _ => Eval.keepsOn_scope_execute w.fuel t with
    ⟨other, among, point, same⟩ | ⟨_, _, isStmt, -⟩ | ⟨body, rfl, sees⟩
  · obtain rfl := Point.eval.inj (inner.symm.trans point)
    exact ⟨among, same⟩
  · cases isStmt.symm.trans inner
  · obtain ⟨_, _, _, -, isStmt, -⟩ := sees.runAll
    cases isStmt.symm.trans inner

/-- A statement that another one runs is written in it: in a block, with one more frame in sight, or in a branch or a
loop. -/
theorem statement {s t : Stmt} (enters : v.Enters w) (outer : v.point = .exec s) (inner : w.point = .exec t) :
    (∃ before rest id, s = .block (before ++ t :: rest) ∧ w.machine.scope = id :: v.machine.scope) ∨
      t ∈ s.branches ∧ w.machine.scope = v.machine.scope := by
  rcases enters.of_exec Eval.enclosing_scope outer fun t _ => Eval.keepsOn_scope_execute w.fuel t with
    ⟨_, _, isExpr, -⟩ | ⟨other, among, point, same⟩ | ⟨body, rfl, sees⟩
  · cases isExpr.symm.trans inner
  · obtain rfl := Point.exec.inj (inner.symm.trans point)
    exact .inr ⟨among, same⟩
  · obtain ⟨before, other, rest, rfl, point, ran⟩ := sees.runAll
    obtain rfl := Point.exec.inj (inner.symm.trans point)
    exact .inl ⟨before, rest, v.machine.frames.size, rfl, Eval.scope_of_runAll ran⟩

end Visit.Enters

/-! ### What a call runs of its own -/

/-- A node runs another one that is written in it. What is run otherwise is the body of a function that is called. -/
def Visit.Inward (v w : Visit) : Prop := v.Enters w ∧ ∀ e s, v.point = .eval e → w.point ≠ .exec s

/-- A call runs a node that is written in the body of its function, outside of functions that are declared there. -/
inductive Call.Inside (c : Call) : Visit → Prop where
  | body {w : Visit} (enters : c.Enters w) : Inside c w
  | inward {v w : Visit} (inside : Inside c v) (step : v.Inward w) : Inside c w

/-- A node that is run is written in the body of the function of a call, or in a function that was made there. -/
inductive Call.Houses (program : List Stmt) (fuel : Nat) (start : Machine) (c : Call) : Visit → Prop where
  | own {w : Visit} (inside : c.Inside w) : Houses program fuel start c w
  | nested {u v w : Visit} {decl : FunDecl} {inner : Call} (declares : Houses program fuel start c u)
      (declaration : u.point = .exec (.function decl)) (reached : Reached program fuel start v) (calls : v.Calls inner)
      (function : inner.function = ⟨u.machine.fresh, decl, u.machine.scope, false⟩) (inside : inner.Inside w) :
      Houses program fuel start c w

section
variable {program : List Stmt} {fuel : Nat} {start : Machine} {c : Call} {v w : Visit}

theorem Call.Inside.reached (inside : c.Inside w) (reached : Reached program fuel start v) (calls : v.Calls c) :
    Reached program fuel start w := by
  induction inside with
  | body enters => exact reached.inner (calls.enters enters)
  | inward _ step ih => exact ih.inner step.1

theorem Call.Houses.reached (houses : c.Houses program fuel start w) (reached : Reached program fuel start v)
    (calls : v.Calls c) : Reached program fuel start w := by
  cases houses with
  | own inside => exact inside.reached reached calls
  | nested _ _ reached' calls' _ inside => exact inside.reached reached' calls'

/-- A call that runs something runs the first statement of the body, from the machine in which the parameters are
bound. -/
theorem Call.Inside.exists_first (inside : c.Inside w) : ∃ s, c.Enters ⟨c.fuel, .exec s, c.entry⟩ := by
  induction inside with
  | body enters =>
    obtain ⟨-, before, s, rest, split, -, -⟩ := enters
    cases before with
    | nil => exact ⟨s, rfl, [], s, rest, split, rfl, rfl⟩
    | cons first before => exact ⟨first, rfl, [], first, before ++ s :: rest, split, rfl, rfl⟩
  | inward _ _ ih => exact ih

theorem Call.Houses.exists_first (houses : c.Houses program fuel start w) :
    ∃ s, c.Enters ⟨c.fuel, .exec s, c.entry⟩ := by
  induction houses with
  | own inside => exact inside.exists_first
  | nested _ _ _ _ _ _ ih => exact ih

end
end LoxLang
