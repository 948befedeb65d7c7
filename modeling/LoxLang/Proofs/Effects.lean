import LoxLang.Proofs.Composition

/-!
What evaluation can do to a machine. A relation between a machine and a later one that is kept by every elementary step
is kept by evaluation, however it ends. Expressions leave the frames in sight as they were; statements do so too, unless
they declare a class directly.
-/

namespace LoxLang.Eval

variable {α β : Type} {R Q : Machine → Machine → Prop} {Names : String → Prop}

/-! ### Layers -/

/-- The machine before a computation and the one it leaves are related if it ends well, or in one of some ways. -/
structure KeepsOn (Way : Ending → Prop) (R : Machine → Machine → Prop) (x : Eval α) : Prop where
  ok : ∀ {m a m'}, x m = .ok a m' → R m m'
  error : ∀ {m ending m'}, x m = .error ending m' → Way ending → R m m'

variable {body : Eval Unit}

section
variable {Way : Ending → Prop}

theorem Keeps.on {x : Eval α} (keeps : Keeps R x) : KeepsOn Way R x := ⟨keeps.of_ok, fun ends _ => keeps.of_error ends⟩

theorem KeepsOn.keeps {x : Eval α} (keeps : KeepsOn (fun _ => True) R x) : Keeps R x := by
  intro m
  rw [after]
  cases ends : x m with
  | ok => exact keeps.ok ends
  | error => exact keeps.error ends trivial

theorem KeepsOn.bind (lasting : Lasting R Names) {x : Eval α} {f : α → Eval β} (first : KeepsOn Way R x)
    (second : ∀ a, KeepsOn Way R (f a)) : KeepsOn Way R (x >>= f) := by
  constructor
  · intro m b m' ran
    cases ends : x m with
    | error => cases (bind_of_error ends).symm.trans ran
    | ok a => exact lasting.trans (first.ok ends) ((second a).ok ((bind_of_ok ends).symm.trans ran))
  · intro m ending m' ran way
    cases ends : x m with
    | error =>
      cases (bind_of_error ends).symm.trans ran
      exact first.error ends way
    | ok a => exact lasting.trans (first.ok ends) ((second a).error ((bind_of_ok ends).symm.trans ran) way)

theorem KeepsOn.catchBreak (breaks : Way .broke) (keeps : KeepsOn Way R body) :
    KeepsOn Way R (catchBreak body) := by
  constructor <;> simp only [Eval.catchBreak] <;> intro m _ m' ran <;> split at ran <;> cases ran
  · exact keeps.ok ‹_›
  · exact keeps.error ‹_› breaks
  · exact keeps.error ‹_›

end

theorem Keeps.catchBreak (keeps : Keeps R body) : Keeps R (catchBreak body) :=
  (KeepsOn.catchBreak trivial keeps.on).keeps

theorem keeps_catchReturn (lasting : Lasting R Names) {otherwise : Eval Value} (first : Keeps R body)
    (second : Keeps R otherwise) : Keeps R (catchReturn body otherwise) := by
  intro m
  have ran := first m
  simp only [after, catchReturn] at ran ⊢
  cases ends : body m with
  | ok _ m' =>
    simp only [ends] at ran ⊢
    exact lasting.trans ran (second m')
  | error ending =>
    simp only [ends] at ran
    cases ending <;> exact ran

/-- A relation that expressions keep, and a weaker one that statements keep, which may lose sight of frames. What runs
with other frames in sight is related by the stronger one as soon as the frames are back in sight. -/
structure Enclosing (R Q : Machine → Machine → Prop) : Prop where
  outer : Lasting R
  inner : Lasting Q
  weaken {m m' : Machine} : R m m' → Q m m'
  rescope (m : Machine) (chain : Frames) : Q m { m with scope := chain }
  back {m m' : Machine} {chain : Frames} : Q { m with scope := chain } m' → R m { m' with scope := m.scope }

section
variable (enclosing : Enclosing R Q)
include enclosing

theorem keeps_within {chain : Frames} {body : Eval α} (h : Keeps Q body) : Keeps R (within chain body) := by
  intro m
  have inside := h { m with scope := chain }
  simp only [after, within] at inside ⊢
  cases ends : body { m with scope := chain } <;> simp only [ends] at inside ⊢ <;> exact enclosing.back inside

/-- What keeps the relation in all its steps, and in the nodes that it runs, keeps it as a whole. -/
theorem Composed.keepsOn {W : Ending → Prop} (breaks : W .broke) {p : Parts} {E : Extent}
    (evals : ∀ e, Keeps R (p.eval e)) (execs : ∀ s, E.Direct (.exec s) → KeepsOn W R (p.exec s))
    (runs : ∀ s, Keeps Q (p.exec s)) {x : Parts → Eval α} (composed : Composed R E x) : KeepsOn W R (x p) := by
  have bodies (chain : Frames) (body : List Stmt) : Keeps R (Eval.within chain (runAll p.exec body)) :=
    keeps_within enclosing (keeps_runAll enclosing.inner runs body)
  induction composed with
  | step step => exact step.keeps.on
  | exit keeps => exact keeps.on
  | eval => exact (evals _).on
  | exec direct => exact execs _ direct
  | bind _ _ first second => exact first.bind enclosing.outer second
  | within chain => exact (bodies chain _).on
  | call chain step => exact (keeps_catchReturn enclosing.outer (bodies chain _) step.keeps).on
  | catchBreak direct => exact (execs _ direct).catchBreak breaks
  | fuelled _ inner => exact inner p.fuel

theorem Enclosing.self : Enclosing Q Q where
  outer := enclosing.inner
  inner := enclosing.inner
  weaken := id
  rescope := enclosing.rescope
  back later := enclosing.inner.trans (enclosing.rescope _ _) (enclosing.inner.trans later (enclosing.rescope _ _))

/-- Evaluation keeps the relations, by induction on the number of layers. -/
theorem keeps_evaluate_execute (fuel : Nat) :
    (∀ e, Keeps R (evaluate fuel e)) ∧ ∀ s, Keeps Q (execute fuel s) := by
  induction fuel with
  | zero => exact ⟨fun _ => keeps_throw enclosing.outer _, fun _ => keeps_throw enclosing.inner _⟩
  | succ fuel ih =>
    let parts : Parts := ⟨fuel, evaluate fuel, execute fuel⟩
    have evals : ∀ e, Keeps R (parts.eval e) := ih.1
    have execs : ∀ s, Keeps Q (parts.exec s) := ih.2
    refine ⟨fun e => ?_, fun s => ?_⟩
    · -- An expression runs statements only with other frames in sight.
      have composed : Composed R { Direct := fun point => ∀ s, point ≠ .exec s } fun p => evalStep p e :=
        composed_evalStep enclosing.outer e
      refine (composed.keepsOn enclosing trivial evals ?_ execs).keeps
      exact fun s direct => absurd rfl (direct s)
    · have composed : Composed Q {} fun p => execStep p s :=
        composed_execStep enclosing.inner s fun decl _ => step_declareClass enclosing.inner enclosing.rescope decl
      have weaker (e : Expr) : Keeps Q (parts.eval e) := (evals e).imp fun _ _ => enclosing.weaken
      exact (composed.keepsOn enclosing.self trivial weaker (fun s _ => (execs s).on) execs).keeps

end

/-! ### Frames in sight and frames that grow -/

theorem enclosing_scope : Enclosing (fun m m' => m'.scope = m.scope) fun _ _ => True where
  outer := ⟨fun _ => rfl, fun first second => second.trans first, fun _ _ => rfl, fun _ _ _ _ _ => rfl,
    fun _ same => same⟩
  inner := lasting_any
  weaken _ := trivial
  rescope _ _ := trivial
  back _ := rfl

theorem keeps_scope_evaluate (fuel : Nat) (e : Expr) : Keeps (fun m m' => m'.scope = m.scope) (evaluate fuel e) :=
  (keeps_evaluate_execute enclosing_scope fuel).1 e

end LoxLang.Eval

namespace LoxLang

variable {m : Machine}

namespace Machine

/-- A later machine has all the frames of an earlier one, and in them all names that were bound. -/
structure Grows (m m' : Machine) : Prop where
  size : m.frames.size ≤ m'.frames.size
  bound : ∀ id name, (m.frame id).contains name = true → (m'.frame id).contains name = true

theorem frame_push_of_lt {id : FrameId} (inside : id < m.frames.size) (bindings : Bindings Value) :
    { m with frames := m.frames.push bindings }.frame id = m.frame id := by
  simp [frame, Array.getElem?_push_lt inside, inside]

theorem frame_push_size (m : Machine) (bindings : Bindings Value) :
    { m with frames := m.frames.push bindings }.frame m.frames.size = bindings := by
  simp [frame]

theorem lt_size_of_contains {id : FrameId} {name : String} (bound : (m.frame id).contains name = true) :
    id < m.frames.size := by
  rcases Nat.lt_or_ge id m.frames.size with inside | outside
  · exact inside
  · rw [frame, Array.getElem?_eq_none outside] at bound
    simp [Bindings.contains, Bindings.get?, Bindings.empty] at bound

theorem size_bind (m : Machine) (id : FrameId) (name : String) (value : Value) :
    (m.bind id name value).frames.size = m.frames.size := by
  simp [bind]

theorem frame_bind_self {id : FrameId} (inside : id < m.frames.size) (name : String) (value : Value) :
    (m.bind id name value).frame id = (m.frame id).put name value := by
  simp only [frame, bind, Array.getElem?_modify, if_true]
  simp [inside]

theorem frame_bind_of_ne {id other : FrameId} (different : other ≠ id) (name : String) (value : Value) :
    (m.bind id name value).frame other = m.frame other := by
  simp [frame, bind, Array.getElem?_modify, Ne.symm different]

theorem Grows.trans {m m' m'' : Machine} (first : Grows m m') (second : Grows m' m'') : Grows m m'' :=
  ⟨Nat.le_trans first.size second.size, fun id name bound => second.bound id name (first.bound id name bound)⟩

theorem Grows.of_frames {m m' : Machine} (same : m'.frames = m.frames) : Grows m m' := by
  refine ⟨Nat.le_of_eq (congrArg Array.size same.symm), fun id name bound => ?_⟩
  rwa [frame, same, ← frame]

theorem grows_push (m : Machine) (bindings : Bindings Value) :
    Grows m { m with frames := m.frames.push bindings } := by
  refine ⟨by simp, fun id name bound => ?_⟩
  rwa [frame_push_of_lt (lt_size_of_contains bound)]

theorem grows_bind (m : Machine) (id : FrameId) (name : String) (value : Value) : Grows m (m.bind id name value) := by
  refine ⟨by simp [size_bind], fun other key bound => ?_⟩
  by_cases same : other = id
  · subst same
    rw [frame_bind_self (lt_size_of_contains bound), Bindings.contains_put]
    exact .inr bound
  · rwa [frame_bind_of_ne same]

end Machine

namespace Eval

theorem lasting_grows : Lasting Machine.Grows where
  refl _ := .of_frames rfl
  trans := .trans
  push := Machine.grows_push
  bind m id name _ value := Machine.grows_bind m id name value
  aside same _ := .of_frames same

theorem enclosing_grows : Enclosing Machine.Grows Machine.Grows where
  outer := lasting_grows
  inner := lasting_grows
  weaken := id
  rescope _ _ := .of_frames rfl
  back grown := ⟨grown.size, grown.bound⟩

theorem grows_evaluate (fuel : Nat) (e : Expr) : Keeps Machine.Grows (evaluate fuel e) :=
  (keeps_evaluate_execute enclosing_grows fuel).1 e

theorem grows_execute (fuel : Nat) (s : Stmt) : Keeps Machine.Grows (execute fuel s) :=
  (keeps_evaluate_execute enclosing_grows fuel).2 s

end Eval

/-! ### Programs -/

/-- What comes out of a program is how its statements end, unless that is reported. -/
theorem Machine.interpret_ending_iff {fuel : Nat} {program : List Stmt} {ending : Ending} :
    (m.interpret fuel program).2 = some ending ↔
      (∀ error, ending ≠ .failed error) ∧ ∃ m', Eval.runAll (Eval.execute fuel) program m = .error ending m' := by
  simp only [interpret, perform, EStateM.run]
  cases ends : Eval.runAll (Eval.execute fuel) program m with
  | ok => simp
  | error other m' =>
    cases other with
    | failed error =>
      refine iff_of_false (by simp) ?_
      rintro ⟨unreported, _, ⟨⟩⟩
      exact unreported error rfl
    | broke | returned | crashed | outOfFuel =>
      constructor
      · rintro ⟨⟩
        exact ⟨by simp, m', rfl⟩
      · rintro ⟨-, _, ⟨⟩⟩
        rfl

end LoxLang
