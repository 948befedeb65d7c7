import LoxLang.Proofs.PlacedRuns

/-!
Loops whose turns run in a frame of their own that stays empty. Each turn leaves one more frame that nobody asks for, so
the placement grows from turn to turn; all else is as in the loop without these frames.
-/

namespace LoxLang

open Eval

def Eval.inFrame (x : Eval Unit) : Eval Unit := do
  let id ← newFrame .empty
  within (id :: (← scope)) x

/-! ### Machines before and after -/

namespace Machine

/-- A later machine of a run has a layout if the earlier one has, and it has no fewer frames. -/
structure Later (m m' : Machine) : Prop where
  laidOut : m.LaidOut → m'.LaidOut
  size : m.frames.size ≤ m'.frames.size

theorem Later.trans {m₁ m₂ m₃ : Machine} (first : m₁.Later m₂) (second : m₂.Later m₃) : m₁.Later m₃ :=
  ⟨second.laidOut ∘ first.laidOut, first.size.trans second.size⟩

def entered (m : Machine) : Machine :=
  { m with frames := m.frames.push .empty, scope := m.frames.size :: m.scope }

section
variable {m : Machine} (laidOut : m.LaidOut)
include laidOut

theorem LaidOut.inSight : ∀ id ∈ m.scope, id < m.frames.size := by
  obtain ⟨l, m', pair⟩ := laidOut
  intro id member
  rw [pair.size_left]
  exact pair.inSight.lt_length id member

theorem LaidOut.globals : 0 < m.frames.size := by
  have inside := laidOut.inSight
  obtain ⟨l, m', pair⟩ := laidOut
  cases chain : m.scope with
  | nil => exact absurd chain pair.inSight.ne_nil
  | cons inner => exact Nat.lt_of_le_of_lt (Nat.zero_le inner) (inside inner (by simp [chain]))

theorem LaidOut.closures : ∀ value, m.Keeps value → ∀ f, value.HasClosure f → ∀ id ∈ f.frames, id < m.frames.size := by
  obtain ⟨l, m', pair⟩ := laidOut
  intro value keeps f has id member
  obtain ⟨value', alike⟩ := pair.keeps keeps
  rw [pair.size_left]
  exact (alike.chain pair has).lt_length id member

theorem LaidOut.entered : m.entered.LaidOut := by
  obtain ⟨l, m', pair⟩ := laidOut
  have pushed : (l.addFrame m.scope 1).Machines { m with frames := m.frames.push .empty }
      { m' with frames := m'.frames.push .empty } := pair.addFrame _ Renaming.proper_one Bindings.alike_empty
  have inside := pushed.rescope (pair.inSight.addFrame 1)
  rw [← pair.size_left] at inside
  exact ⟨_, _, inside⟩

end

end Machine

namespace Layout

theorem Results.laidOut {α β : Type} {w : Sight} {R : Sight → α → β → Prop} {x : Eval α} {m : Machine}
    {r : EStateM.Result Ending Machine β} (results : Results w R (x m) r) : (x.after m).LaidOut := by
  rw [after]
  generalize x m = ran at results
  cases results with
  | ok _ pair => exact ⟨_, _, pair⟩
  | error _ pair => exact ⟨_, _, pair⟩

end Layout

namespace Eval

theorem later_evaluate (n : Nat) (e : Expr) : Keeps Machine.Later (evaluate n e) := by
  intro m
  refine ⟨?_, (grows_evaluate n e m).size⟩
  rintro ⟨l, m', pair⟩
  exact Layout.Results.laidOut ((Layout.partsFollow_ofFuel n).eval pair.left.seen rfl e)

theorem later_execute (n : Nat) (s : Stmt) : Keeps Machine.Later (execute n s) := by
  intro m
  refine ⟨?_, (grows_execute n s m).size⟩
  rintro ⟨l, m', pair⟩
  have renamed := Stmt.renamed_refl Renaming.proper_one (l.trivial_left m.scope) s
  exact Layout.Results.laidOut ((Layout.partsFollow_ofFuel n).exec pair.left.seen rfl renamed)

theorem later_pure {α : Type} (a : α) : Keeps Machine.Later (pure a : Eval α) := fun _ => ⟨id, le_rfl⟩

theorem later_bind {α β : Type} {x : Eval α} {f : α → Eval β} (first : Keeps Machine.Later x)
    (next : ∀ a, Keeps Machine.Later (f a)) : Keeps Machine.Later (x >>= f) := by
  intro m
  cases ends : x m with
  | ok a m₁ =>
    rw [after_bind_of_ok ends]
    exact (first.of_ok ends).trans (next a m₁)
  | error =>
    rw [after_bind_of_error ends]
    exact first.of_error ends

theorem inFrame_eq (x : Eval Unit) (m : Machine) :
    inFrame x m = match x m.entered with
      | .ok u m₁ => .ok u { m₁ with scope := m.scope }
      | .error ending m₁ => .error ending { m₁ with scope := m.scope } := by
  have made : inFrame x m = within (m.frames.size :: m.scope) x { m with frames := m.frames.push .empty } := rfl
  rw [made, Machine.entered]
  unfold within
  cases x { m with frames := m.frames.push .empty, scope := m.frames.size :: m.scope } <;> rfl

end Eval

namespace Placement

open Simulation (follows_pure)

/-! ### Placements that grow -/

theorem Agrees.refl (p : Placement) (inside : FrameId → Prop) : p.Agrees p inside := ⟨fun _ _ => rfl, fun _ => id⟩

theorem Agrees.trans {p q r : Placement} {inside inside' : FrameId → Prop} (first : p.Agrees q inside)
    (second : q.Agrees r inside') (sub : ∀ id, inside id → inside' id) : p.Agrees r inside :=
  ⟨fun id isInside => (second.place id (sub id isInside)).trans (first.place id isInside),
    fun id unplaced => second.unplaced id (first.unplaced id unplaced)⟩

section
variable {α β : Type}

/-- From two machines, two computations end alike, with places for the frames that the second one has made besides. -/
def Trails (p : Placement) (m m' : Machine) (x : Eval α) (x' : Eval β) (R : α → β → Prop) : Prop :=
  ∃ q, p.Agrees q (· < m.frames.size) ∧ q.Follows id m m' x x' R

variable {p : Placement} {m m' : Machine} {R : α → β → Prop}

theorem Follows.trails {x : Eval α} {x' : Eval β} (follows : p.Follows id m m' x x' R) : p.Trails m m' x x' R :=
  ⟨p, .refl p _, follows⟩

theorem Trails.bind {γ δ : Type} {S : γ → δ → Prop} {x : Eval α} {x' : Eval β} {f : α → Eval γ} {f' : β → Eval δ}
    (first : p.Trails m m' x x' R) (later : Keeps Machine.Later x) (laidOut : m.LaidOut)
    (next : ∀ (q : Placement) a a' m₁ m₁', q.Machines id m₁ m₁' → m₁.LaidOut → R a a' →
      q.Trails m₁ m₁' (f a) (f' a') S) : p.Trails m m' (x >>= f) (x' >>= f') S := by
  obtain ⟨q, agrees, ran⟩ := first
  unfold Follows Simulation.Follows at ran
  generalize ends : x m = r, ends' : x' m' = r' at ran
  cases ran with
  | error after inSight alike =>
    refine ⟨q, agrees, ?_⟩
    rw [Follows, Simulation.Follows, bind_of_error ends, bind_of_error ends']
    exact .error after inSight alike
  | @ok m₁ m₁' a a' after related =>
    have passed := later.of_ok ends
    obtain ⟨q', agrees', rest⟩ := next q a a' m₁ m₁' after (passed.laidOut laidOut) related
    refine ⟨q', agrees.trans agrees' fun id inside => lt_of_lt_of_le inside passed.size, ?_⟩
    rw [Follows, Simulation.Follows, bind_of_ok ends, bind_of_ok ends']
    exact rest

end

section
variable {p : Placement} {m m' : Machine} {test test' : Eval Bool} {x x' : Eval Unit}

theorem Trails.catchBreak (inner : p.Trails m m' x x' Eq) :
    p.Trails m m' (Eval.catchBreak x) (Eval.catchBreak x') Eq := by
  obtain ⟨q, agrees, ran⟩ := inner
  exact ⟨q, agrees, ran.catchBreak⟩

theorem Trails.inFrame (inner : ∀ {m m' : Machine}, p.Machines id m m' → m.LaidOut → p.Trails m m' x x' Eq)
    (pair : p.Machines id m m') (laidOut : m.LaidOut) :
    p.Trails m m' (Eval.inFrame x) (Eval.inFrame x') Eq := by
  have chains : p.Chains id (m.frames.size :: m.scope) (m'.frames.size :: m'.scope) := by
    rw [← pair.place_size, ← under_id]
    exact .frame m.frames.size pair.scope
  have entered : p.Machines id m.entered m'.entered := (pair.addFrame Bindings.alike_empty).rescope chains
  obtain ⟨q, agrees, ran⟩ := inner entered laidOut.entered
  have size : m.entered.frames.size = m.frames.size + 1 := Array.size_push _
  have sub : ∀ id, id < m.frames.size → id < m.entered.frames.size := by
    intro id inside
    rw [size]
    exact Nat.lt_succ_of_lt inside
  refine ⟨q, (Agrees.refl p _).trans agrees sub, ?_⟩
  have back := pair.scope.move agrees fun id member => sub id (laidOut.inSight id member)
  unfold Follows Simulation.Follows at ran
  rw [Follows, Simulation.Follows, inFrame_eq, inFrame_eq]
  generalize x m.entered = r, x' m'.entered = r' at ran
  cases ran with
  | ok after => exact .ok (after.rescope back) rfl
  | error after _ alike => exact .error (after.rescope back) (fun _ => rfl) alike

/-! ### Turns in a frame of their own -/

/-- What runs in a new frame of the second machine alone ends alike, if it leaves the frames in sight. -/
theorem trails_inFrame
    (turn : ∀ (q : Placement) {m m' : Machine}, q.Machines Nat.succ m m' → q.Follows Nat.succ m m' x x' Eq)
    (inSight : Keeps (fun m m' => m'.scope = m.scope) x) (pair : p.Machines id m m') (laidOut : m.LaidOut) :
    p.Trails m m' x (inFrame x') Eq := by
  have agrees := pair.agrees_insert laidOut.globals
  have chains := pair.scope.move agrees laidOut.inSight
  refine ⟨_, agrees, ?_⟩
  have ran : Results _ Nat.succ Eq (x m) (x' m'.entered) :=
    turn _ (pair.insert laidOut.globals laidOut.inSight laidOut.closures)
  rw [Follows, Simulation.Follows, inFrame_eq]
  generalize ends : x m = r, x' m'.entered = r' at ran
  -- the frames in sight are left as they were by the first run, and put back by the second
  cases ran with
  | ok after =>
    have back := after.rescope chains
    rw [← inSight.of_ok ends] at back
    exact .ok back rfl
  | error after _ alike =>
    have back := after.rescope chains
    rw [← inSight.of_error ends] at back
    exact .error back (fun _ => rfl) alike

/-- A loop with one more frame for each turn, by induction on the number of turns. -/
theorem trails_repeatWhile
    (tests : ∀ (q : Placement) {m m' : Machine}, q.Machines id m m' → q.Follows id m m' test test' Eq)
    (turn : ∀ (q : Placement) {m m' : Machine}, q.Machines Nat.succ m m' → q.Follows Nat.succ m m' x x' Eq)
    (inSight : Keeps (fun m m' => m'.scope = m.scope) x) (testLater : Keeps Machine.Later test)
    (later : Keeps Machine.Later x) (n : Nat) (pair : p.Machines id m m') (laidOut : m.LaidOut) :
    p.Trails m m' (repeatWhile test x n) (repeatWhile test' (inFrame x') n) Eq := by
  induction n generalizing p m m' with
  | zero => exact (follows_throw pair .outOfFuel).trails
  | succ _ ih =>
    rw [repeatWhile_succ, repeatWhile_succ]
    refine (tests p pair).trails.bind testLater laidOut ?_
    rintro q holds _ m₁ m₁' pair₁ laidOut₁ rfl
    cases holds with
    | false => exact Follows.trails (follows_pure pair₁ rfl)
    | true =>
      refine (trails_inFrame turn inSight pair₁ laidOut₁).catchBreak.bind later.catchBreak laidOut₁ ?_
      rintro q' again _ m₂ m₂' pair₂ laidOut₂ rfl
      cases again with
      | false => exact Follows.trails (follows_pure pair₂ rfl)
      | true => exact ih pair₂ laidOut₂

end

end Placement

end LoxLang
