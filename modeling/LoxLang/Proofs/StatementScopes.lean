import LoxLang.Proofs.Effects

/-!
Evaluation gives back the frames in sight. Expressions do so however they end, since bodies run inside of `within`. A
statement does so when it ends well, and also when it ends with a break, with a return or for lack of fuel. When it ends
with an error, one new frame may stay in sight: that of a class whose traits could not be taken up. All this holds of
every tree, with any depths in it, and from every machine.
-/

namespace LoxLang

/-- One new frame has stayed in sight, in which nothing but `super` is bound. -/
def Machine.HalfMade (m m' : Machine) : Prop :=
  ∃ id base, m.frames.size ≤ id ∧ m'.scope = id :: m.scope ∧
    m'.frame id = Bindings.empty.put superName (.classObject base)

namespace Eval

variable {α β : Type}

/-- What a statement leaves in sight. -/
def Settled (m : Machine) : EStateM.Result Ending Machine α → Prop
  | .ok _ m' => m'.scope = m.scope
  | .error ending m' => m'.scope = m.scope ∨ ending.isError = true ∧ m.HalfMade m'

/-- A computation loses no frames, and settles the frames in sight. -/
structure Settles (x : Eval α) : Prop where
  grows : Keeps Machine.Grows x
  settled : ∀ m, Settled m (x m)

theorem settles_of_keeps {x : Eval α} (grows : Keeps Machine.Grows x)
    (scope : Keeps (fun m m' => m'.scope = m.scope) x) : Settles x := by
  refine ⟨grows, fun m => ?_⟩
  cases ends : x m with
  | ok => exact scope.of_ok ends
  | error => exact .inl (scope.of_error ends)

theorem Settles.bind {x : Eval α} {f : α → Eval β} (first : Settles x) (next : ∀ a, Settles (f a)) :
    Settles (x >>= f) := by
  refine ⟨.bind lasting_grows first.grows fun a => (next a).grows, fun m => ?_⟩
  have before := first.settled m
  cases ends : x m with
  | error =>
    rw [ends] at before
    rw [bind_of_error ends]
    exact before
  | ok a m₁ =>
    rw [ends] at before
    have same : m₁.scope = m.scope := before
    have after := (next a).settled m₁
    rw [bind_of_ok ends]
    cases ends' : f a m₁ with
    | ok =>
      rw [ends'] at after
      exact Eq.trans after same
    | error =>
      rw [ends'] at after
      rcases after with kept | ⟨isError, id, base, new, inSight, bound⟩
      · exact .inl (kept.trans same)
      · refine .inr ⟨isError, id, base, ?_, same ▸ inSight, bound⟩
        exact Nat.le_trans (first.grows.of_ok ends).size new

theorem settles_pure (a : α) : Settles (pure a : Eval α) :=
  settles_of_keeps (keeps_pure lasting_grows a) (keeps_pure enclosing_scope.outer a)

theorem Settles.ite {p : Prop} [Decidable p] {x y : Eval α} (yes : Settles x) (no : Settles y) :
    Settles (if p then x else y) := by
  split
  · exact yes
  · exact no

/-- A break ends the body of a loop with the frames in sight as they were, so the loop may catch it. -/
theorem Settles.catchBreak {body : Eval Unit} (settles : Settles body) : Settles (catchBreak body) := by
  refine ⟨settles.grows.catchBreak, fun m => ?_⟩
  have ran := settles.settled m
  unfold Eval.catchBreak
  cases ends : body m with
  | ok =>
    rw [ends] at ran
    exact ran
  | error ending =>
    rw [ends] at ran
    cases ending with
    | broke =>
      rcases ran with kept | ⟨isError, -⟩
      · exact kept
      · cases isError
    | _ => exact ran

theorem settles_repeatWhile {test : Eval Bool} {body : Eval Unit} (tests : Settles test) (runs : Settles body)
    (n : Nat) : Settles (repeatWhile test body n) := by
  induction n with
  | zero => exact settles_of_keeps (fun _ => .of_frames rfl) fun _ => rfl
  | succ _ ih =>
    rw [repeatWhile_succ]
    exact tests.bind fun _ => .ite (runs.catchBreak.bind fun _ => .ite ih (settles_pure ())) (settles_pure ())

theorem halfMade_classSite (m : Machine) (decl : ClassDecl) (base : Option Class) {m' : Machine}
    (frames : m'.frames = (m.classSite decl base).frames) (chain : m'.scope = (m.classSite decl base).scope) :
    m'.scope = m.scope ∨ m.HalfMade m' := by
  have outer := m.scope_defining decl.name.lexeme .nil
  cases base with
  | none => exact .inl (chain.trans outer)
  | some base =>
    right
    have grown := ((step_define lasting_grows decl.name.lexeme .nil).keeps.of_ok (define_eq m decl.name.lexeme .nil)).size
    refine ⟨(m.defining decl.name.lexeme .nil).frames.size, base, grown, ?_, ?_⟩
    · rw [chain, ← outer]
      rfl
    · rw [Machine.frame, frames, ← Machine.frame]
      exact Machine.frame_push_size _ _

theorem settles_declareClass (decl : ClassDecl) : Settles (declareClass decl) := by
  refine ⟨(step_declareClass lasting_grows (fun _ _ => .of_frames rfl) decl).keeps, fun m => ?_⟩
  rcases declareClass_cases m decl with ⟨ending, -, ends⟩ | ⟨base, -, ⟨ending, m', failed, ends⟩ | ⟨c, m', -, ends⟩⟩
  · rw [ends]
    exact .inl rfl
  · rw [ends]
    rcases makeClass_cases (m.classSite decl base) decl base with ⟨_, -, -, made⟩ | ⟨ending', isError, made, -⟩
    · cases failed.symm.trans made
    · obtain ⟨rfl, rfl⟩ := EStateM.Result.error.inj (failed.symm.trans made)
      rcases halfMade_classSite m decl base rfl rfl with kept | left
      · exact .inl kept
      · exact .inr ⟨isError, left⟩
  · have kept := (step_assignNamed enclosing_scope.outer m.scope decl.name (.classObject c)).keeps
    rw [ends]
    cases assigned : assignNamed m.scope decl.name (.classObject c) { m' with scope := m.scope } with
    | ok =>
      have restored := kept.of_ok assigned
      exact restored
    | error =>
      have restored := kept.of_error assigned
      exact .inl restored

/-- Statements settle, by induction on the number of layers. -/
theorem settles_execute (fuel : Nat) (s : Stmt) : Settles (execute fuel s) := by
  have lasting := enclosing_scope.outer
  induction fuel generalizing s with
  | zero => exact settles_of_keeps (keeps_throw lasting_grows _) (keeps_throw lasting _)
  | succ fuel ih =>
    have evalKeeps := keeps_scope_evaluate fuel
    have evals (e : Expr) : Settles (evaluate fuel e) := settles_of_keeps (grows_evaluate fuel e) (evalKeeps e)
    have plain (noClass : ∀ decl, s ≠ .classDef decl) (alone : s.branches = []) : Settles (execute (fuel + 1) s) := by
      have composed : Composed (fun m m' => m'.scope = m.scope) { Direct := fun point => ∀ t, point ≠ .exec t }
          fun p => execStep p s :=
        composed_execStep lasting s (fun decl same => absurd same (noClass decl)) (by simp) (by simp) (by simp [alone])
      let parts : Parts := ⟨fuel, evaluate fuel, execute fuel⟩
      refine settles_of_keeps (grows_execute (fuel + 1) s)
        (composed.keepsOn (p := parts) enclosing_scope trivial evalKeeps ?_ fun _ _ => trivial).keeps
      exact fun t direct => absurd rfl (direct t)
    cases s with
    | ifElse _ yes no =>
      refine (evals _).bind fun _ => .ite (ih yes) ?_
      cases no with
      | none => exact settles_pure ()
      | some no => exact ih no
    | whileLoop _ body =>
      exact settles_repeatWhile ((evals _).bind fun _ => settles_pure _) (ih body) fuel
    | classDef decl => exact settles_declareClass decl
    | _ => exact plain (by simp) rfl

/-- Evaluating an expression leaves the frames in sight as they were, whether it yields a value or ends otherwise; so
does every statement that ends well, and one that does not, unless it fails at a class that it leaves half made. -/
theorem scope_after_evaluation (fuel : Nat) (m : Machine) :
    (∀ e, ((evaluate fuel e).after m).scope = m.scope) ∧ ∀ s, Settled m (execute fuel s m) :=
  ⟨fun e => keeps_scope_evaluate fuel e m, fun s => (settles_execute fuel s).settled m⟩

end Eval

end LoxLang
