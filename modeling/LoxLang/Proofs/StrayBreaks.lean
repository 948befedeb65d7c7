import LoxLang.Proofs.AcceptedRuns
import LoxLang.Proofs.Activations

/-!
Where a break ends up. A break that is not in the body of a loop leaves the function it is written in, and then all that
runs on the way to the call of that function, up to the body of a loop. Where no call is left so, a loop is only left by a
break that is written in its body.
-/

namespace LoxLang

/-! ### Breaks that are written outside of loops -/

mutual

/-- A break is written in the statement, neither in the body of a loop nor in a function that is declared there. -/
def Stmt.exposesBreak : Stmt → Bool
  | .breakLoop => true
  | .block body => Stmt.anyExposesBreak body
  | .ifElse _ yes none => yes.exposesBreak
  | .ifElse _ yes (some no) => yes.exposesBreak || no.exposesBreak
  | .expression _ | .print _ | .var .. | .whileLoop .. | .returnValue .. | .function _ | .classDef _ | .traitDef _
  | .missing => false

def Stmt.anyExposesBreak : List Stmt → Bool
  | [] => false
  | s :: rest => s.exposesBreak || Stmt.anyExposesBreak rest

end

theorem Stmt.anyExposesBreak_of_mem {body : List Stmt} {s : Stmt} (member : s ∈ body) (exposes : s.exposesBreak = true) :
    Stmt.anyExposesBreak body = true := by
  induction body with
  | nil => exact absurd member List.not_mem_nil
  | cons _ _ ih =>
    rw [Stmt.anyExposesBreak, Bool.or_eq_true]
    rcases List.mem_cons.mp member with rfl | member
    · exact .inl exposes
    · exact .inr (ih member)

theorem Stmt.Part.exposesBreak {s t : Stmt} (part : s.Part t) (noLoop : s.isLoop = false)
    (exposes : t.exposesBreak = true) : s.exposesBreak = true := by
  cases part with
  | block member => exact Stmt.anyExposesBreak_of_mem member exposes
  | @thenBranch _ _ other =>
    cases other with
    | none => exact exposes
    | some => exact Bool.or_eq_true _ _ ▸ .inl exposes
  | elseBranch => exact Bool.or_eq_true _ _ ▸ .inr exposes
  | loop => exact nomatch noLoop

/-! ### Breaks that are carried out -/

namespace Visit

/-- A node runs another one directly, and not as the body of a loop. -/
def Bares (v w : Visit) : Prop := v.Enters w ∧ ∀ s, w.point = .exec s → v.point.Passes .broke

/-- A node runs another one, and on the way there is no body of a loop. -/
def Exposes : Visit → Visit → Prop := Relation.ReflTransGen Bares

variable {v w : Visit}

/-- A break that is carried out outside of the loops in a statement is exposed there. -/
theorem Strays.exposesBreak (strays : v.Strays w) (isBreak : w.point = .exec .breakLoop) {s : Stmt}
    (outer : v.point = .exec s) : s.exposesBreak = true := by
  induction strays using Relation.ReflTransGen.head_induction_on generalizing s with
  | refl =>
    obtain rfl := Point.exec.inj (outer.symm.trans isBreak)
    rfl
  | head step _ ih =>
    obtain ⟨⟨enters, -, t, inner⟩, noLoop⟩ := step
    exact (enters.part outer inner).exposesBreak (noLoop s outer) (ih inner)

theorem Exposes.ends (exposes : v.Exposes w) (ends : w.Ends .broke) : v.Ends .broke := by
  induction exposes with
  | refl => exact ends
  | tail _ step ih => exact ih (step.1.ends step.2 ends)

/-- A node ends with a break only if one is carried out there, by induction on the number of layers. -/
theorem Ends.exposes {n : Nat} {point : Point} {m : Machine} (ends : Ends ⟨n, point, m⟩ .broke) :
    ∃ w, Exposes ⟨n, point, m⟩ w ∧ w.Breaks := by
  induction n generalizing point m with
  | zero => exact nomatch (ends.fuel_pos rfl).choose_spec
  | succ n ih =>
    rcases ends.inner rfl with ⟨isBreak, -⟩ | ⟨_, _, _, -, isReturn⟩ | ⟨⟨k, part, m'⟩, enters, inner, passes⟩
    · exact ⟨_, .refl, isBreak, ends⟩
    · exact nomatch isReturn
    · obtain rfl : n = k := Nat.succ.inj enters.1
      obtain ⟨w, exposes, breaks⟩ := ih inner
      exact ⟨w, exposes.head ⟨enters, passes⟩, breaks⟩

theorem ends_broke_iff : v.Ends .broke ↔ ∃ w, v.Exposes w ∧ w.Breaks := by
  refine ⟨Ends.exposes, ?_⟩
  rintro ⟨w, exposes, -, ends⟩
  exact exposes.ends ends

/-- On the way to a statement there is a last call, unless all on the way are statements. -/
theorem Exposes.innermost (exposes : v.Exposes w) {t : Stmt} (isStmt : w.point = .exec t) :
    (∃ s, v.point = .exec s ∧ v.Strays w) ∨ ∃ x c u, v.Exposes x ∧ x.Calls c ∧ c.Enters u ∧ u.Strays w := by
  induction exposes generalizing t with
  | refl => exact .inl ⟨t, isStmt, .refl⟩
  | @tail x w exposes step ih =>
    cases point : x.point with
    | eval =>
      obtain ⟨c, calls, body⟩ := step.1.calls point isStmt
      exact .inr ⟨x, c, w, exposes, calls, body, .refl⟩
    | exec s =>
      have noLoop : s.isLoop = false := by
        have passes := step.2 t isStmt
        rw [point] at passes
        exact Bool.eq_false_iff.mpr fun isLoop => passes isLoop rfl
      have within : x.Within w ∧ ∀ s, x.point = .exec s → s.isLoop = false :=
        ⟨⟨step.1, ⟨s, point⟩, t, isStmt⟩, fun s' same => Point.exec.inj (point.symm.trans same) ▸ noLoop⟩
      rcases ih point with ⟨s', outer, strays⟩ | ⟨y, c, u, outer, calls, body, strays⟩
      · exact .inl ⟨s', outer, strays.tail within⟩
      · exact .inr ⟨y, c, u, outer, calls, body, strays.tail within⟩

end Visit

/-- A call ends with a break exactly if one is carried out in its body, or further down, outside of the bodies of
loops. -/
theorem Call.broke_iff {c : Call} :
    (∃ m, c.run = .error .broke m) ↔ ∃ u w, c.Enters u ∧ u.Exposes w ∧ w.Breaks := by
  constructor
  · rintro ⟨m, broke⟩
    obtain ⟨u, enters, ends⟩ := Call.exists_of_run_broke broke
    obtain ⟨w, exposes, breaks⟩ := Visit.ends_broke_iff.mp ends
    exact ⟨u, w, enters, exposes, breaks⟩
  · rintro ⟨u, w, enters, exposes, breaks⟩
    exact Call.run_of_broke enters (exposes.ends breaks.2)

/-! ### Calls that a break gets out of -/

section
variable {program : List Stmt} {fuel : Nat} {start : Machine}

/-- A call that is made in the run and ends with a break. -/
def BrokenCall (program : List Stmt) (fuel : Nat) (start : Machine) (c : Call) : Prop :=
  (∃ v, Reached program fuel start v ∧ v.Calls c) ∧ ∃ m, c.run = .error .broke m

/-- A call that is made in the run and carries out a break of its own body, outside of the loops there. -/
def StrayBreak (program : List Stmt) (fuel : Nat) (start : Machine) (c : Call) : Prop :=
  (∃ v, Reached program fuel start v ∧ v.Calls c) ∧ ∃ u w, c.Enters u ∧ u.Strays w ∧ w.Breaks

theorem StrayBreak.broken {c : Call} (stray : StrayBreak program fuel start c) : BrokenCall program fuel start c := by
  obtain ⟨made, u, w, enters, strays, -, ends⟩ := stray
  exact ⟨made, Call.run_of_broke enters (strays.ends ends)⟩

theorem Visit.Exposes.reached {v w : Visit} (exposes : v.Exposes w) (reached : Reached program fuel start v) :
    Reached program fuel start w := by
  induction exposes with
  | refl => exact reached
  | tail _ step ih => exact ih.inner step.1

/-- A node that ends with a break carries one out, unless a call does from which it gets out. -/
theorem Visit.Ends.strays_or_strayBreak {v : Visit} (ends : v.Ends .broke) (reached : Reached program fuel start v) :
    (∃ s w, v.point = .exec s ∧ v.Strays w ∧ w.Breaks) ∨ ∃ c, StrayBreak program fuel start c := by
  obtain ⟨w, exposes, breaks⟩ := Visit.ends_broke_iff.mp ends
  rcases exposes.innermost breaks.1 with ⟨s, point, strays⟩ | ⟨x, c, u, outer, calls, body, strays⟩
  · exact .inl ⟨s, w, point, strays, breaks⟩
  · exact .inr ⟨c, ⟨x, outer.reached reached, calls⟩, u, w, body, strays, breaks⟩

/-- If a call ends with a break, then some call carries out a break of its own. -/
theorem BrokenCall.exists_stray {c : Call} (broken : BrokenCall program fuel start c) :
    ∃ c, StrayBreak program fuel start c := by
  obtain ⟨⟨v, reached, calls⟩, m, broke⟩ := broken
  obtain ⟨u, enters, ends⟩ := Call.exists_of_run_broke broke
  rcases ends.strays_or_strayBreak (reached.inner (calls.enters enters)) with ⟨s, w, -, strays, breaks⟩ | stray
  · exact ⟨c, ⟨v, reached, calls⟩, u, w, enters, strays, breaks⟩
  · exact stray

end

/-- What becomes of the breaks in a run of an accepted program. A call ends with a break exactly if one is carried out in
it that no loop in it catches, and there are such calls exactly if one of them carries out a break in the body of its own
function, outside of the loops there. As long as there are none, only a statement ends with a break, and the break is
written in it, so that a loop is left only by a break in its own body. That is so if no function of the program has a
break outside of its loops. -/
theorem call_broke_iff_stray_break {source : String} {program : List Stmt} (accepted : Accepted source program)
    (fuel : Nat) (start : Machine) :
    (∀ v c, Reached program fuel start v → v.Calls c →
        ((∃ m, c.run = .error .broke m) ↔ ∃ u w, c.Enters u ∧ u.Exposes w ∧ w.Breaks)) ∧
      ((∃ c, BrokenCall program fuel start c) ↔ ∃ c, StrayBreak program fuel start c) ∧
      ((∀ c, ¬ BrokenCall program fuel start c) → ∀ v, Reached program fuel start v → v.Ends .broke →
        ∃ s w, v.point = .exec s ∧ s.exposesBreak = true ∧ v.Strays w ∧ w.Breaks) ∧
      ∀ clock dice, start = .start clock dice →
        (∀ f ∈ Stmt.allFunctions program, Stmt.anyExposesBreak f.body = false) →
        ∀ c, ¬ BrokenCall program fuel start c := by
  refine ⟨fun v c _ _ => Call.broke_iff, ⟨?_, ?_⟩, ?_, ?_⟩
  · rintro ⟨c, broken⟩
    exact broken.exists_stray
  · rintro ⟨c, stray⟩
    exact ⟨c, stray.broken⟩
  · intro unbroken v reached ends
    rcases ends.strays_or_strayBreak reached with ⟨s, w, isStmt, strays, breaks⟩ | ⟨c, stray⟩
    · exact ⟨s, w, isStmt, strays.exposesBreak breaks.1 isStmt, strays, breaks⟩
    · exact absurd stray.broken (unbroken c)
  · rintro clock dice rfl covered c broken
    obtain ⟨stray, ⟨v, reached, calls⟩, u, w, enters, strays, breaks⟩ := broken.exists_stray
    have known := Run.mem_functions_of_calls (r := .ofAccepted accepted fuel clock dice) reached calls
    obtain ⟨s, member, isStmt⟩ := enters.point_mem
    have exposed := Stmt.anyExposesBreak_of_mem member (strays.exposesBreak breaks.1 isStmt)
    exact nomatch exposed.symm.trans (covered _ known)

/-! A function with a break, and a loop that calls it. -/

def strayingSource : String := "fun f()\x7bbreak;\x7dwhile(true)f();"

def breakingFunction : FunDecl := ⟨.named "f", some [], [.breakLoop]⟩

def breakingCall : Expr := .call (.var (.named "f") none) ⟨.rightParen, ")", .nil, 1⟩ []

def breakingLoop : Stmt := .whileLoop (.literal (.bool true)) (.expression breakingCall)

def strayingProgram : List Stmt := [.function breakingFunction, breakingLoop]

theorem accepted_straying : Accepted strayingSource strayingProgram :=
  .of_steps rfl rfl rfl (Grammar.derives_statements .oneLine strayingProgram rfl) rfl rfl

def strayingMachine : Machine := (Eval.execute 1 (.function breakingFunction)).after (.start {} {})

def straying : Call := ⟨2, ⟨0, breakingFunction, [0], false⟩, [], strayingMachine⟩

theorem strayBreak_straying : StrayBreak strayingProgram 5 (.start {} {}) straying := by
  have split : strayingProgram = [.function breakingFunction] ++ breakingLoop :: [] := rfl
  have loop : Reached strayingProgram 5 (.start {} {}) ⟨5, .exec breakingLoop, strayingMachine⟩ := .statement split rfl
  have body : Reached strayingProgram 5 (.start {} {}) ⟨4, .exec (.expression breakingCall), strayingMachine⟩ := by
    have seen : Eval.Sees ⟨4, .exec (.expression breakingCall), strayingMachine⟩
        (fun p => Eval.repeatWhile (do return (← p.eval (.literal (.bool true))).isTruthy)
          (p.exec (.expression breakingCall)) (3 + 1)) strayingMachine :=
      Eval.sees_repeatWhile rfl rfl rfl
    exact loop.inner ⟨rfl, seen⟩
  have call : Reached strayingProgram 5 (.start {} {}) ⟨3, .eval breakingCall, strayingMachine⟩ :=
    body.inner Visit.enters_expression
  have made : Visit.Calls ⟨3, .eval breakingCall, strayingMachine⟩ straying := .function rfl rfl rfl
  have enters : straying.Enters ⟨2, .exec .breakLoop, straying.entry⟩ := ⟨rfl, [], .breakLoop, [], rfl, rfl, rfl⟩
  exact ⟨⟨_, call, made⟩, _, _, enters, .refl, rfl, _, rfl⟩

/-- The break gets out of the call and ends the loop, which would never end otherwise. -/
theorem stray_break_ends_loop :
    Accepted strayingSource strayingProgram ∧ StrayBreak strayingProgram 5 (.start {} {}) straying ∧
      (∃ c, BrokenCall strayingProgram 5 (.start {} {}) c) ∧
      ((Machine.start {} {}).interpret 5 strayingProgram).2 = none :=
  ⟨accepted_straying, strayBreak_straying,
    (call_broke_iff_stray_break accepted_straying 5 (.start {} {})).2.1.mpr ⟨straying, strayBreak_straying⟩, rfl⟩

end LoxLang
