import LoxLang.Proofs.Declaring
import LoxLang.Proofs.SimulatedLayers

/-!
What a step of evaluation can do to a machine. A relation between a machine and a later one that is kept when a frame is
made or a name is bound is kept by everything that evaluation does between the nodes it runs, however that ends.
-/

namespace LoxLang

open Simulation

/-- The ending leaves a loop or a function. -/
def Ending.isExit : Ending → Bool
  | .broke | .returned _ => true
  | .failed _ | .crashed _ | .outOfFuel => false

namespace Eval

variable {α β : Type} {R Q : Machine → Machine → Prop} {Names : String → Prop}

/-- The machine before a computation and the one it leaves are related. -/
def Keeps (R : Machine → Machine → Prop) (x : Eval α) : Prop := ∀ m, R m (x.after m)

/-- A step of its own: it keeps a relation, and it does not end with an exit. -/
structure Step (R : Machine → Machine → Prop) (x : Eval α) : Prop where
  keeps : Keeps R x
  calm : ∀ {m ending m'}, x m = .error ending m' → ending.isExit = false

/-- A relation that every step which leaves the frames in sight as they are keeps. Only some names may be bound. -/
structure Lasting (R : Machine → Machine → Prop) (Names : String → Prop := fun _ => True) : Prop where
  refl (m : Machine) : R m m
  trans {m m' m'' : Machine} : R m m' → R m' m'' → R m m''
  push (m : Machine) (bindings : Bindings Value) : R m { m with frames := m.frames.push bindings }
  bind (m : Machine) (id : FrameId) {name : String} (allowed : Names name) (value : Value) : R m (m.bind id name value)
  aside {m m' : Machine} : m'.frames = m.frames → m'.scope = m.scope → R m m'

variable {x : Eval α}

theorem Keeps.of_ok (h : Keeps R x) {m m' : Machine} {a : α} (ends : x m = .ok a m') : R m m' := by
  have := h m
  rwa [after, ends] at this

theorem Keeps.of_error (h : Keeps R x) {m m' : Machine} {ending : Ending}
    (ends : x m = .error ending m') : R m m' := by
  have := h m
  rwa [after, ends] at this

theorem Keeps.imp (h : Keeps R x) (weaker : ∀ m m', R m m' → Q m m') : Keeps Q x :=
  fun m => weaker m _ (h m)

theorem Keeps.bind (lasting : Lasting R Names) {f : α → Eval β} (first : Keeps R x)
    (second : ∀ a, Keeps R (f a)) : Keeps R (x >>= f) := by
  intro m
  have one := first m
  simp only [after, Bind.bind, EStateM.bind] at one ⊢
  cases ends : x m with
  | ok a m1 =>
    simp only [ends] at one ⊢
    exact lasting.trans one (second a m1)
  | error => simpa only [ends] using one

theorem keeps_pure (lasting : Lasting R Names) (a : α) : Keeps R (pure a) := lasting.refl

theorem keeps_throw (lasting : Lasting R Names) (ending : Ending) : Keeps R (throw ending : Eval α) := lasting.refl

theorem Keeps.map (f : α → β) (h : Keeps R x) : Keeps R (f <$> x) := by
  intro m
  have one := h m
  simp only [after, Functor.map, EStateM.map] at one ⊢
  cases ends : x m <;> simpa only [ends] using one

section
variable (lasting : Lasting R Names)
include lasting

/-! ### Steps -/

theorem Step.bind {f : α → Eval β} (first : Step R x) (second : ∀ a, Step R (f a)) : Step R (x >>= f) where
  keeps := .bind lasting first.keeps fun a => (second a).keeps
  calm {m ending m'} ends := by
    cases ran : x m with
    | ok a => exact (second a).calm ((bind_of_ok ran).symm.trans ends)
    | error =>
      obtain ⟨rfl, -⟩ := EStateM.Result.error.inj ((bind_of_error ran).symm.trans ends)
      exact first.calm ran

omit lasting in
theorem Step.ite {p : Prop} [Decidable p] {x y : Eval α} (yes : Step R x) (no : Step R y) :
    Step R (if p then x else y) := by
  split
  · exact yes
  · exact no

omit lasting in
theorem step_of_ok {value : Machine → α} {next : Machine → Machine}
    (ends : ∀ m, x m = .ok (value m) (next m)) (keeps : ∀ m, R m (next m)) : Step R x := by
  refine ⟨fun m => ?_, fun {m ending m'} failed => ?_⟩
  · rw [after, ends]
    exact keeps m
  · cases (ends m).symm.trans failed

theorem step_pure (a : α) : Step R (pure a) := step_of_ok (fun _ => rfl) lasting.refl

omit lasting in
theorem step_of_cases (ends : ∀ m, (∃ a m', x m = .ok a m' ∧ R m m') ∨
    ∃ ending m', x m = .error ending m' ∧ ending.isError = true ∧ R m m') : Step R x := by
  refine ⟨fun m => ?_, fun {m ending m'} failed => ?_⟩ <;>
    rcases ends m with ⟨_, _, ends, kept⟩ | ⟨_, _, ends, isError, kept⟩
  · rwa [after, ends]
  · rwa [after, ends]
  · cases ends.symm.trans failed
  · cases ends.symm.trans failed
    cases ending <;> cases isError <;> rfl

theorem step_of_looks (looks : Looks x) : Step R x :=
  step_of_cases fun m => (looks m).imp (fun ends => ⟨_, m, ends.choose_spec, lasting.refl m⟩) fun ends =>
    ⟨_, m, ends.choose_spec.1, ends.choose_spec.2, lasting.refl m⟩

theorem step_throw {ending : Ending} (calm : ending.isExit = false) : Step R (throw ending : Eval α) where
  keeps := keeps_throw lasting ending
  calm ends := (EStateM.Result.error.inj ends).1 ▸ calm

theorem step_fail (token : Token) (cause : Cause) : Step R (fail token cause : Eval α) := step_throw lasting rfl

theorem step_crash (fault : Fault) : Step R (crash fault : Eval α) := step_throw lasting rfl

theorem step_newFrame (bindings : Bindings Value) : Step R (newFrame bindings) :=
  step_of_ok (fun _ => rfl) fun m => lasting.push m bindings

theorem step_freshId : Step R freshId := step_of_ok (fun _ => rfl) fun _ => lasting.aside rfl rfl

theorem step_newObject : Step R newObject := step_of_ok (fun _ => rfl) fun _ => lasting.aside rfl rfl

theorem step_printLine (line : String) : Step R (printLine line) :=
  step_of_ok (fun _ => rfl) fun _ => lasting.aside rfl rfl

theorem step_scope : Step R scope := step_of_ok (fun _ => rfl) lasting.refl

theorem step_bind (id : FrameId) {name : String} (value : Value) (allowed : Names name) :
    Step R (modify (·.bind id name value)) := step_of_ok (fun _ => rfl) fun m => lasting.bind m id allowed value

theorem step_define (name : String) (value : Value) (allowed : Names name := by trivial) :
    Step R (define name value) := by
  refine .bind lasting (step_scope lasting) fun chain => ?_
  cases chain with
  | nil => exact step_pure lasting ()
  | cons inner => exact step_bind lasting inner value allowed

theorem step_ancestor (chain : Frames) (depth : Nat) : Step R (ancestor chain depth) := by
  unfold ancestor
  split
  · exact step_pure lasting _
  · exact step_crash lasting _

theorem step_getAt (chain : Frames) (depth : Nat) (name : String) : Step R (getAt chain depth name) :=
  step_of_looks lasting (looks_getAt chain depth name)

theorem step_assignAt (chain : Frames) (depth : Nat) (name : String) (value : Value)
    (allowed : Names name := by trivial) : Step R (assignAt chain depth name value) :=
  .bind lasting (step_ancestor lasting chain depth) fun id => step_bind lasting id value allowed

theorem step_assignNamed (chain : Frames) (name : Token) (value : Value)
    (allowed : Names name.lexeme := by trivial) : Step R (assignNamed chain name value) := by
  refine .bind lasting (step_of_looks lasting looks_get) fun m => ?_
  split
  · exact step_bind lasting _ value allowed
  · exact step_fail lasting name _

theorem step_makeClosure (decl : FunDecl) (isInitializer : Bool) : Step R (makeClosure decl isInitializer) :=
  .bind lasting (step_freshId lasting) fun _ => .bind lasting (step_scope lasting) fun _ => step_pure lasting _

theorem step_bindThis (f : Closure) (receiver : Value) : Step R (bindThis f receiver) :=
  .bind lasting (step_newFrame lasting _) fun _ => .bind lasting (step_freshId lasting) fun _ => step_pure lasting _

/-! ### Built-in functions and properties -/

/-- A relation that lasts is kept up, whatever the values. -/
def Lasting.upkeep : Upkeep Machine where
  Later := R
  Allows _ _ := True
  Provides _ _ := True
  Holds w m := m = w
  Way w ending m := R w m ∧ ending.isExit = false
  later_refl _ := lasting.refl _
  later_trans := lasting.trans
  mono _ _ := trivial
  plain _ := trivial
  makes _ _ := trivial
  methods _ _ _ := trivial
  ownMethods _ _ _ := trivial
  builtin _ := trivial
  fields _ _ := trivial
  elements _ _ := trivial
  aside _ _ _ _ same := ⟨_, same ▸ lasting.aside rfl rfl, rfl⟩
  addArray same _ := ⟨_, same ▸ lasting.aside rfl rfl, rfl⟩
  setElement _ _ _ same _ := ⟨_, same ▸ lasting.aside rfl rfl, rfl⟩
  setField _ _ _ same _ := ⟨_, same ▸ lasting.aside rfl rfl, rfl⟩
  addObject same := ⟨_, same ▸ lasting.aside rfl rfl, rfl⟩
  way_earlier later way := ⟨lasting.trans later way.1, way.2⟩
  failed _ same := ⟨same ▸ lasting.refl _, rfl⟩
  crashed same _ := ⟨same ▸ lasting.refl _, rfl⟩
  outOfFuel same := ⟨same ▸ lasting.refl _, rfl⟩
  bindThis {_ _ f receiver} same _ _ :=
    ⟨_, _, _, rfl, same ▸ (step_bindThis lasting f receiver).keeps _, rfl, trivial, rfl⟩

variable {P : Machine → α → α → Prop}

theorem step_of_follows
    (follows : ∀ m, lasting.upkeep.simulation.Machines m m m → lasting.upkeep.simulation.Follows m m m x x P) :
    Step R x := by
  refine ⟨fun m => ?_, fun {m ending m'} ends => ?_⟩ <;> have kept := follows m ⟨rfl, rfl⟩ <;>
    rw [Follows] at kept
  · rw [after]
    generalize x m = r at kept
    cases kept with
    | ok later same => exact same ▸ later
    | error way => exact way.1
  · rw [ends] at kept
    cases kept with
    | error way => exact way.2

theorem Step.follows (step : Step R x) (related : ∀ m a, P m a a)
    (m : Machine) : lasting.upkeep.simulation.Follows m m m x x P := by
  rw [Follows]
  cases ends : x m with
  | ok a => exact .ok (step.keeps.of_ok ends) rfl (related _ a)
  | error => exact .error ⟨step.keeps.of_error ends, step.calm ends⟩

theorem step_applyBinary (op : Token) (left right : Value) : Step R (ofExcept (applyBinary op left right)) := by
  have same (m : Machine) (value : Value) := lasting.upkeep.simulation.ofKind (w := m) (⟨rfl, trivial⟩ : value = value ∧ _)
  exact step_of_follows lasting fun m pair => follows_ofExcept pair
    (Kinds.outcomes_applyBinary rfl (same m left) (same m right) (lasting.upkeep.simulation.agree pair) rfl)

theorem step_applyUnary (op : Token) (operand : Value) : Step R (ofExcept (applyUnary op operand)) :=
  step_of_follows lasting fun m pair => follows_ofExcept pair
    (Kinds.outcomes_applyUnary rfl (lasting.upkeep.simulation.ofKind (w := m) ⟨rfl, trivial⟩) rfl)

theorem allValues_self (w : Machine) (args : List Value) : lasting.upkeep.simulation.AllValues w args args :=
  List.forall₂_same.mpr fun _ _ => ⟨rfl, trivial⟩

theorem step_callBuiltin (b : Builtin) (args : List Value) : Step R (callBuiltin b args) :=
  step_of_follows lasting fun m pair =>
    follows_callBuiltin pair (allValues_self lasting m args) b

theorem step_callArrayFunction (access : ArrayAccess) (id : Nat) (args : List Value) :
    Step R (callArrayFunction access id args) :=
  step_of_follows lasting fun m pair =>
    follows_callArrayFunction pair (allValues_self lasting m args) access id

theorem step_text (value : Value) : Step R (text value) :=
  step_of_follows lasting fun _ pair => follows_text pair ⟨rfl, trivial⟩

theorem step_readProperty (value : Value) (name : Token) : Step R (readProperty value name) :=
  step_of_follows lasting fun _ pair => follows_readProperty pair ⟨rfl, trivial⟩ rfl

theorem step_checkHasFields (value : Value) (name : Token) : Step R (checkHasFields value name) :=
  step_of_follows lasting fun _ pair => follows_checkHasFields pair ⟨rfl, trivial⟩ rfl

theorem step_setProperty (object : Value) (name : Token) (value : Value) : Step R (setProperty object name value) :=
  step_of_follows lasting fun _ pair =>
    follows_setProperty pair ⟨rfl, trivial⟩ rfl ⟨rfl, trivial⟩

theorem step_readSuper (method : Token) (depth : Option Nat) : Step R (readSuper method depth) := by
  cases depth with
  | none => exact step_crash lasting _
  | some d =>
    have found (chain : Frames) (d : Nat) (name : String) (m : Machine) := (step_getAt lasting chain d name).follows
      lasting (P := lasting.upkeep.simulation.Values) (fun _ _ => ⟨rfl, trivial⟩) m
    refine step_of_follows lasting fun m pair => follows_readSuper pair rfl (found _ _ _ _) ?_
    rintro u m₁ _ - ⟨rfl, rfl⟩
    exact found _ _ _ _

theorem step_readName (name : Token) (depth : Option Nat) : Step R (readName name depth) :=
  step_of_looks lasting (looks_readName name depth)

theorem step_assignName (name : Token) (depth : Option Nat) (value : Value)
    (allowed : Names name.lexeme := by trivial) : Step R (assignName name depth value) := by
  cases depth with
  | none => exact step_assignNamed lasting _ _ _ allowed
  | some => exact .bind lasting (step_scope lasting) fun _ => step_assignAt lasting _ _ _ _ allowed

/-! ### Declarations -/

theorem step_includeTraits (methods : Bindings Closure) (refs : List NameRef) : Step R (includeTraits methods refs) :=
  step_of_looks lasting (looks_includeTraits methods refs)

theorem step_addTraitMethods (methods : Bindings Closure) (decls : List FunDecl) :
    Step R (addTraitMethods methods decls) := by
  induction decls generalizing methods with
  | nil => exact step_pure lasting methods
  | cons _ _ ih =>
    exact .ite (step_crash lasting _) (.bind lasting (step_makeClosure lasting _ _) fun _ => ih _)

theorem step_makeClass (decl : ClassDecl) (base : Option Class) : Step R (makeClass decl base) := by
  refine step_of_cases fun m => ?_
  rcases makeClass_cases m decl base with ⟨_, -, -, ends⟩ | ⟨_, isError, ends, -⟩
  · exact .inl ⟨_, _, ends, lasting.aside rfl rfl⟩
  · exact .inr ⟨_, _, ends, isError, lasting.aside rfl rfl⟩

theorem step_declareTrait (decl : TraitDecl) (allowed : Names decl.name.lexeme := by trivial) :
    Step R (declareTrait decl) :=
  .bind lasting (step_define lasting _ _ allowed) fun _ => .bind lasting (step_includeTraits lasting _ _) fun _ =>
    .bind lasting (step_addTraitMethods lasting _ _) fun _ => .bind lasting (step_freshId lasting) fun _ =>
      .bind lasting (step_scope lasting) fun _ => step_assignNamed lasting _ _ _ allowed

omit lasting in
theorem step_rescope (rescope : ∀ m chain, R m { m with scope := chain }) (chain : Frames) :
    Step R (modify fun m : Machine => { m with scope := chain }) := step_of_ok (fun _ => rfl) fun m => rescope m chain

theorem step_enterSubclass (rescope : ∀ m chain, R m { m with scope := chain }) (base : Option Class) :
    Step R (enterSubclass base) := by
  cases base with
  | none => exact step_pure lasting ()
  | some =>
    exact .bind lasting (step_newFrame lasting _) fun _ => .bind lasting (step_scope lasting) fun _ => step_rescope rescope _

theorem step_declareClass (rescope : ∀ m chain, R m { m with scope := chain }) (decl : ClassDecl)
    (allowed : Names decl.name.lexeme := by trivial) : Step R (declareClass decl) :=
  .bind lasting (step_of_looks lasting (looks_readSuperclass _)) fun _ => .bind lasting (step_define lasting _ _ allowed) fun _ =>
    .bind lasting (step_scope lasting) fun _ => .bind lasting (step_enterSubclass lasting rescope _) fun _ =>
      .bind lasting (step_makeClass lasting _ _) fun _ => .bind lasting (step_rescope rescope _) fun _ =>
        step_assignNamed lasting _ _ _ allowed

theorem keeps_runAll {run : Runner} (h : ∀ s, Keeps R (run s)) (body : List Stmt) : Keeps R (runAll run body) := by
  induction body with
  | nil => exact keeps_pure lasting ()
  | cons s _ ih => exact .bind lasting (h s) fun _ => ih

end

theorem lasting_any : Lasting fun _ _ => True :=
  ⟨fun _ => trivial, fun _ _ => trivial, fun _ _ => trivial, fun _ _ _ _ _ => trivial, fun _ _ => trivial⟩

end Eval

end LoxLang
