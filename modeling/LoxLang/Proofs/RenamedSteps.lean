import LoxLang.Proofs.Layouts

/-!
The steps of evaluation on machines that differ in the names of local variables. From related machines two computations
end alike if they look up the same variables, under whatever names.
-/

namespace LoxLang

open Eval

variable {value value' : Value}

namespace Layout

/-! ### The simulation -/

/-- Endings with related values. That something is no trait is said with its name, which may be that of a local
variable. -/
inductive Endings (l : Layout) : Ending → Ending → Prop
  | broke : Endings l .broke .broke
  | returned {value value' : Value} (alike : l.Values value value') : Endings l (.returned value) (.returned value')
  | failed (error : RuntimeError) : Endings l (.failed error) (.failed error)
  | crashed (fault : Fault) : Endings l (.crashed fault) (.crashed fault)
  | notTrait (name name' : String) :
    Endings l (.crashed (.declaration (.notTrait name))) (.crashed (.declaration (.notTrait name')))
  | outOfFuel : Endings l .outOfFuel .outOfFuel

/-- A layout, with the frames that are in sight. -/
structure Sight where
  layout : Layout
  chain : Frames

/-- The renamings of the frames that are in sight. -/
def Sight.namings (w : Sight) : List Renaming := w.layout.namings w.chain

section
variable {α β : Type}

/-- Two computations have ended alike, with machines that are related by a layout that has grown. Behind a value, and
behind the way out of a loop, the frames in sight are known. -/
inductive Results (w : Sight) (R : Sight → α → β → Prop) :
    EStateM.Result Ending Machine α → EStateM.Result Ending Machine β → Prop
  | ok {l : Layout} {m m' : Machine} {a : α} {a' : β} (later : w.layout ≤ l) (pair : l.Machines m m')
    (inSight : m.scope = w.chain) (related : R ⟨l, w.chain⟩ a a') : Results w R (.ok a m) (.ok a' m')
  | error {l : Layout} {m m' : Machine} {ending ending' : Ending} (later : w.layout ≤ l) (pair : l.Machines m m')
    (inSight : ending = .broke → m.scope = w.chain) (alike : l.Endings ending ending') :
    Results w R (.error ending m) (.error ending' m')

theorem Results.earlier {w : Sight} {l : Layout} {R : Sight → α → β → Prop} {r : EStateM.Result Ending Machine α}
    {r' : EStateM.Result Ending Machine β} (later : w.layout ≤ l) (results : Results ⟨l, w.chain⟩ R r r') :
    Results w R r r' := by
  cases results with
  | ok after pair inSight related => exact .ok (later.trans after) pair inSight related
  | error after pair inSight alike => exact .error (later.trans after) pair inSight alike

end

def kinds (l : Layout) : Kinds where
  objects o o' := l.Values (.object o) (.object o')
  classes := l.Classes
  methods := l.Methods
  functions := l.Closures []
  traits := l.Traits
  builtins _ := True

variable {l : Layout} {m m' : Machine} {w : Sight}

theorem Values.of_isPlain (isPlain : value.isPlain = true) : l.Values value value := by
  cases value with
  | nil | bool | number | string | array | arrayFunction => constructor
  | _ => cases isPlain

theorem Values.ofKind (alike : l.Values value value') : l.kinds.Values value value' := by
  cases alike with
  | nil | bool | number | string | array | arrayFunction => constructor
  | object id made => exact .object (.object id made)
  | classObject alike => exact .classObject alike
  | function alike => exact .function alike
  | trait alike => exact .trait alike
  | builtin => exact .builtin trivial

theorem Machines.agree_kinds (pair : l.Machines m m') : l.kinds.Agree where
  object_id alike := by
    cases alike
    rfl
  object_name alike := by
    cases alike with
    | object _ made => exact rel_name (fun alike => (alike.listed pair).name) made
  object_method name alike := by
    cases alike with
    | object _ made => exact rel_findMethod? (pair.findMethod? name) made
  class_id := pair.id_eq
  class_name alike := (alike.listed pair).name
  class_method name alike := rel_findMethod? (pair.findMethod? name) (alike.listed pair).metaclass
  makes id alike := .object id (.some alike)
  method alike := by
    cases alike with
    | closure alike => exact .closure (.closure alike)
    | builtin => exact .builtin trivial
  method_arity alike := by
    cases alike with
    | closure alike => exact arity_eq alike.decl
    | builtin => rfl
  function_id := Closures.id
  function_name alike := congrArg Token.lexeme alike.decl.name_eq
  function_arity alike := arity_eq alike.decl
  function_getter alike := isGetter_eq alike.decl
  trait_id := Traits.id
  trait_name alike := congrArg Token.text alike.name

def simulation : Simulation Sight where
  Later w u := w.layout ≤ u.layout ∧ u.chain = w.chain
  Tokens := Eq
  kinds w := w.layout.kinds
  Values w := w.layout.Values
  Machines w m m' := w.layout.Machines m m' ∧ m.scope = w.chain
  Ends := Results
  later_refl _ := ⟨le_rfl, rfl⟩
  later_trans first second := ⟨first.1.trans second.1, second.2.trans first.2⟩
  lexeme_eq := @Token.lexeme_eq_of_eq
  kind_eq := @Token.kind_eq_of_eq
  native _ := rfl
  mono later := Values.mono later.1
  classes_mono later := Classes.mono later.1
  ofKind := Values.ofKind
  plain := .of_isPlain
  object alike := alike
  function := .function
  builtin _ := .builtin _
  agree pair := pair.1.agree_kinds
  machines pair := {
    pair.1 with
    fields := fun id name => (pair.1.fields id).get? (1 : Renaming).injective name }
  aside _ _ _ _ pair := ⟨_, ⟨le_rfl, rfl⟩,
    { pair.1 with fresh := rfl, printed := rfl, clock := rfl, dice := rfl }, pair.2⟩
  addArray pair all := ⟨_, ⟨le_rfl, rfl⟩, pair.1.addArray all, pair.2⟩
  setElement id cell _ _ pair alike := ⟨_, ⟨le_rfl, rfl⟩, pair.1.setElement id cell alike, pair.2⟩
  setField id name _ _ pair alike := ⟨_, ⟨le_rfl, rfl⟩, pair.1.setField id name alike, pair.2⟩
  ok later pair related := .ok later.1 pair.1 (pair.2.trans later.2) (later.2 ▸ related)
  failed _ pair same := by
    rw [same]
    exact .error le_rfl pair.1 (fun _ => pair.2) (.failed _)
  crashed pair _ := .error le_rfl pair.1 (fun _ => pair.2) (.crashed _)
  outOfFuel pair := .error le_rfl pair.1 (fun _ => pair.2) .outOfFuel
  bind {_ _ _ _ _ _ x x' _ _ _ m m'} _ first next := by
    simp only [Bind.bind, EStateM.bind]
    generalize ends : x m = r, x' m' = r' at first
    cases first with
    | @ok l _ _ _ _ later pair inSight related =>
      exact (next ⟨l, _⟩ _ _ _ _ ends ⟨later, rfl⟩ ⟨pair, inSight⟩ related).earlier later
    | error later pair inSight alike => exact .error later pair inSight alike
  newObject {w _ _} pair := by
    rw [newObject, newObject, pair.1.objects_right, pair.1.objects_left]
    exact .ok (w.layout.le_addObject none) (pair.1.addObject (by simp)) pair.2 rfl
  bindThis {w _ _ f _ _ _} pair method receivers := by
    cases method with
    | closure alike =>
      have later := w.layout.le_addFrame f.frames 1
      have bound := Bindings.alike_empty.put (1 : Renaming).injective thisName receivers
      have after := pair.1.addFrame f.frames Renaming.proper_one bound
      refine .ok later { after with fresh := congrArg (· + 1) after.fresh } pair.2
        ⟨⟨pair.1.fresh, ?_, alike.isInitializer, ?_, ?_⟩, rfl⟩
      · rw [alike.frames, pair.1.size_left, pair.1.size_right]
      · rw [pair.1.size_left]
        exact alike.chain.addFrame 1
      · rw [pair.1.size_left, alike.chain.namings_addFrame]
        exact alike.decl

theorem Machines.seen (pair : l.Machines m m') : simulation.Machines ⟨l, m.scope⟩ m m' := ⟨pair, rfl⟩

/-! ### Computations that end alike -/

open Simulation (Same follows_freshId follows_get follows_pure follows_fail follows_of_ok)

section
variable {α β : Type}

abbrev Sight.Follows (w : Sight) (m m' : Machine) (x : Eval α) (x' : Eval β) (R : Sight → α → β → Prop) : Prop :=
  simulation.Follows w m m' x x' R

variable {R : Sight → α → β → Prop} (pair : simulation.Machines w m m')
include pair

theorem follows_throw {ending ending' : Ending} (alike : w.layout.Endings ending ending') :
    w.Follows m m' (throw ending) (throw ending') R := .error le_rfl pair.1 (fun _ => pair.2) alike

theorem follows_crash (fault : Fault) : w.Follows m m' (crash fault) (crash fault) R :=
  follows_throw pair (.crashed fault)

theorem follows_scope {f : Frames → Eval α} {f' : Frames → Eval β}
    (next : w.Follows m m' (f w.chain) (f' w.chain) R) : w.Follows m m' (scope >>= f) (scope >>= f') R := by
  refine Simulation.follows_scope ?_
  rwa [pair.1.scope, pair.2]

theorem Follows.within {x x' : Eval Unit} {chain : Frames}
    (inner : Sight.Follows ⟨w.layout, chain⟩ { m with scope := chain } { m' with scope := chain } x x' Same) :
    w.Follows m m' (Eval.within chain x) (Eval.within chain x') Same := by
  unfold Sight.Follows Simulation.Follows at inner ⊢
  simp only [Eval.within, pair.1.scope]
  generalize x { m with scope := chain } = r, x' { m' with scope := chain } = r' at inner
  cases inner with
  | ok later after _ related => exact .ok later (after.rescope (pair.1.inSight.mono later)) pair.2 related
  | error later after _ alike =>
    exact .error later (after.rescope (pair.1.inSight.mono later)) (fun _ => pair.2) alike

/-- What is computed with other frames in sight, and goes on with those that were. -/
theorem Follows.leaving {γ δ : Type} {Q : Sight → γ → δ → Prop} {v : Sight} (later : w.layout ≤ v.layout)
    {n n' : Machine} {x : Eval α} {x' : Eval β} {f : α → Eval γ} {f' : β → Eval δ}
    (calm : ∀ {ending m₁}, x n = .error ending m₁ → ending.isExit = false) (inner : v.Follows n n' x x' R)
    (next : ∀ l a a' (m₁ m₁' : Machine), x n = .ok a m₁ → w.layout ≤ l →
      simulation.Machines ⟨l, w.chain⟩ { m₁ with scope := w.chain } { m₁' with scope := w.chain } →
      R ⟨l, v.chain⟩ a a' →
      Sight.Follows ⟨l, w.chain⟩ { m₁ with scope := w.chain } { m₁' with scope := w.chain } (f a) (f' a') Q) :
    w.Follows n n' (do let a ← x; setScope w.chain; f a) (do let a ← x'; setScope w.chain; f' a) Q := by
  unfold Sight.Follows Simulation.Follows at inner ⊢
  simp only [Bind.bind, EStateM.bind]
  generalize ends : x n = r, x' n' = r' at inner
  cases inner with
  | @ok l m₁ m₁' a a' later₁ after _ related =>
    have grown := later.trans later₁
    have back := after.rescope (pair.1.inSight.mono grown)
    rw [pair.2] at back
    exact (next l a a' m₁ m₁' ends grown ⟨back, rfl⟩ related).earlier grown
  | error later₁ after _ alike =>
    refine .error (later.trans later₁) after ?_ alike
    rintro rfl
    cases calm ends

theorem Follows.catchReturn {x x' : Eval Unit} {y y' : Eval Value} (restores : ∀ ending m₁, x m = .error ending m₁ →
      m₁.scope = m.scope) (inner : w.Follows m m' x x' Same)
    (otherwise : ∀ u m₁ m₁', simulation.Later w u → simulation.Machines u m₁ m₁' →
      u.Follows m₁ m₁' y y' simulation.Values) :
    w.Follows m m' (Eval.catchReturn x y) (Eval.catchReturn x' y') simulation.Values := by
  unfold Sight.Follows Simulation.Follows at inner ⊢
  simp only [Eval.catchReturn]
  generalize ends : x m = r, x' m' = r' at inner
  cases inner with
  | ok later after inSight =>
    exact (otherwise ⟨_, w.chain⟩ _ _ ⟨later, rfl⟩ ⟨after, inSight⟩).earlier later
  | error later after inSight alike =>
    cases alike with
    | broke => exact .error later after inSight .broke
    | returned alike => exact .ok later after ((restores _ _ ends).trans pair.2) alike
    | failed | crashed | notTrait | outOfFuel => exact .error later after inSight (by constructor)

end

theorem catchesBreak : simulation.CatchesBreak := by
  intro w m m' x x' _ inner
  unfold Simulation.Follows at inner ⊢
  simp only [catchBreak]
  generalize x m = r, x' m' = r' at inner
  cases inner with
  | ok later after inSight => exact .ok later after inSight rfl
  | error later after inSight alike =>
    cases alike with
    | broke => exact .ok later after (inSight rfl) rfl
    | returned alike => exact .error later after inSight (.returned alike)
    | failed | crashed | notTrait | outOfFuel => exact .error later after inSight (by constructor)

/-! ### Elementary steps -/

theorem renamingAt_namings {chain : Frames} {d : Nat} {id : FrameId} (found : chain[d]? = some id) :
    renamingAt (l.namings chain) (some d) = l.naming id := by
  simp [renamingAt, namings, found]

theorem proper_renamingAt (pair : l.Machines m m') (chain : Frames) (depth : Option Nat) :
    (renamingAt (l.namings chain) depth).Proper := by
  cases depth with
  | none => exact Renaming.proper_one
  | some d =>
    cases found : chain[d]? with
    | none =>
      have outside : renamingAt (l.namings chain) (some d) = 1 := by simp [renamingAt, namings, found]
      rw [outside]
      exact Renaming.proper_one
    | some id =>
      rw [renamingAt_namings found]
      exact pair.proper id

section
variable (pair : simulation.Machines w m m')
include pair

/-- A computation that binds a name in a frame, under the name that replaces it there. -/
theorem follows_bind {x x' : Eval Unit} {id : FrameId} {name : String} (alike : w.layout.Values value value')
    (ends : x m = .ok () (m.bind id name value)) (ends' : x' m' = .ok () (m'.bind id (w.layout.naming id name) value')) :
    w.Follows m m' x x' Same :=
  follows_of_ok ends ends' ⟨le_rfl, rfl⟩ ⟨pair.1.bind id name alike, pair.2⟩ rfl

theorem follows_newFrame {outer : Frames} (isChain : w.layout.Chain outer) {π : Renaming} (proper : π.Proper)
    {b b' : Bindings Value} (alike : b.Alike π w.layout.Values b') :
    w.Follows m m' (newFrame b) (newFrame b') fun u id id' =>
      id = id' ∧ u.layout.Chain (id :: outer) ∧ u.layout.namings (id :: outer) = π :: w.layout.namings outer := by
  have ends : newFrame b m = .ok w.layout.frames.length { m with frames := m.frames.push b } := by
    rw [newFrame, pair.1.size_left]
  have ends' : newFrame b' m' = .ok w.layout.frames.length { m' with frames := m'.frames.push b' } := by
    rw [newFrame, pair.1.size_right]
  exact follows_of_ok (u := ⟨_, w.chain⟩) ends ends' ⟨w.layout.le_addFrame outer π, rfl⟩
    ⟨pair.1.addFrame _ proper alike, pair.2⟩ ⟨rfl, isChain.addFrame π, isChain.namings_addFrame π⟩

theorem follows_newClass {c c' : Nat → Class} (listed : w.layout.Listed w.layout.classes.length
      (c w.layout.classes.length) (c' w.layout.classes.length)) :
    w.Follows m m' newObject newObject fun u id id' => id = id' ∧ u.layout.Classes (c id) (c' id) := by
  have ends : newObject m = .ok w.layout.classes.length { m with fields := m.fields.push .empty } := by
    rw [newObject, pair.1.objects_left]
  have ends' : newObject m' = .ok w.layout.classes.length { m' with fields := m'.fields.push .empty } := by
    rw [newObject, pair.1.objects_right]
  have isListed : ∀ d d', some (c w.layout.classes.length, c' w.layout.classes.length) = some (d, d') →
      w.layout.Listed w.layout.classes.length d d' := by
    rintro _ _ ⟨⟩
    exact listed
  exact follows_of_ok (u := ⟨_, w.chain⟩) ends ends' ⟨w.layout.le_addObject _, rfl⟩
    ⟨pair.1.addObject isListed, pair.2⟩ ⟨rfl, classes_addObject listed.id_left⟩

theorem follows_getAt (chain : Frames) (depth : Nat) (name : String) :
    w.Follows m m' (getAt chain depth name)
      (getAt chain depth (renamingAt (w.layout.namings chain) (some depth) name)) simulation.Values := by
  unfold getAt ancestor
  cases found : chain[depth]? with
  | none => exact follows_crash pair _
  | some id =>
    rw [renamingAt_namings found]
    have bound := (pair.1.frames id).get? (w.layout.naming id).injective name
    have value : ∀ {x x' : Option Value}, Option.Rel w.layout.Values x x' →
        w.layout.Values (x.getD .nil) (x'.getD .nil) := by
      rintro _ _ (related | _)
      · exact related
      · exact .nil
    exact follows_pure pair (value bound)

theorem follows_getAt_this (chain : Frames) (depth : Nat) :
    w.Follows m m' (getAt chain depth thisName) (getAt chain depth thisName) simulation.Values := by
  have follows := follows_getAt pair chain depth thisName
  rwa [(proper_renamingAt pair.1 chain (some depth)).this] at follows

theorem follows_getAt_super (chain : Frames) (depth : Nat) :
    w.Follows m m' (getAt chain depth superName) (getAt chain depth superName) simulation.Values := by
  have follows := follows_getAt pair chain depth superName
  rwa [(proper_renamingAt pair.1 chain (some depth)).super] at follows

theorem follows_assignAt (chain : Frames) (depth : Nat) (name : String) (alike : w.layout.Values value value') :
    w.Follows m m' (assignAt chain depth name value)
      (assignAt chain depth (renamingAt (w.layout.namings chain) (some depth) name) value') Same := by
  unfold assignAt ancestor
  cases found : chain[depth]? with
  | none => exact follows_crash pair _
  | some =>
    rw [renamingAt_namings found]
    exact follows_bind pair alike rfl rfl

/-- A name is bound in the innermost frame in sight, under the name that replaces it there. -/
theorem follows_define (name : String) (alike : w.layout.Values value value') :
    w.Follows m m' (define name value) (define (renamingAt w.namings (some 0) name) value') Same := by
  refine follows_scope pair ?_
  cases chain : w.chain with
  | nil => exact absurd (pair.2.trans chain) pair.1.inSight.ne_nil
  | cons inner =>
    have found : w.chain[0]? = some inner := by simp [chain]
    rw [Sight.namings, renamingAt_namings found]
    exact follows_bind pair alike rfl rfl

theorem global_alike : (m.frame 0).Alike (1 : Renaming) w.layout.Values (m'.frame 0) := by
  have alike := pair.1.frames 0
  rwa [pair.1.inSight.naming_zero] at alike

theorem follows_getNamed (name : Token) :
    w.Follows m m' (getNamed globalFrames name) (getNamed globalFrames name) simulation.Values := by
  refine follows_get ?_
  rw [Machine.lookup?_global, Machine.lookup?_global]
  have bound := (global_alike pair).get? (1 : Renaming).injective name.lexeme
  rw [Equiv.Perm.one_apply] at bound
  generalize (m.frame 0).get? name.lexeme = x, (m'.frame 0).get? name.lexeme = x' at bound
  cases bound with
  | some related => exact follows_pure pair related
  | none => exact follows_fail pair rfl _

/-- A name is assigned to in the first frame that has it, if this frame keeps the name. -/
theorem follows_assignNamed {id : FrameId} {outer : Frames} {name : Token}
    (kept : w.layout.naming id name.lexeme = name.lexeme)
    (bound : (m.frame id).contains name.lexeme = true ∨ outer = []) (alike : w.layout.Values value value') :
    w.Follows m m' (assignNamed (id :: outer) name value) (assignNamed (id :: outer) name value') Same := by
  refine follows_get ?_
  have bound' := (pair.1.frames id).contains (w.layout.naming id).injective name.lexeme
  rw [kept] at bound'
  simp only [Machine.findFrame?, List.find?_cons, bound']
  cases holds : (m.frame id).contains name.lexeme with
  | true => exact follows_bind pair alike rfl (by rw [kept]; rfl)
  | false =>
    obtain rfl := bound.resolve_left (by simp [holds])
    exact follows_fail pair rfl _

theorem follows_readName (name : Token) (depth : Option Nat) :
    w.Follows m m' (readName name depth) (readName (name.rename (renamingAt w.namings depth)) depth)
      simulation.Values := by
  cases depth with
  | none => exact follows_getNamed pair name
  | some d => exact follows_scope pair (follows_getAt pair w.chain d name.lexeme)

theorem follows_assignName (name : Token) (depth : Option Nat) (alike : w.layout.Values value value') :
    w.Follows m m' (assignName name depth value)
      (assignName (name.rename (renamingAt w.namings depth)) depth value') Same := by
  cases depth with
  | none => exact follows_assignNamed pair (by rw [pair.1.inSight.naming_zero]; rfl) (.inr rfl) alike
  | some d => exact follows_scope pair (follows_assignAt pair w.chain d name.lexeme alike)

/-! ### Functions -/

theorem namings_of_later {u : Sight} (later : simulation.Later w u) : u.namings = w.namings := by
  have isChain := pair.1.inSight
  rw [pair.2] at isChain
  rw [Sight.namings, show u.chain = w.chain from later.2, isChain.namings_eq later.1, Sight.namings]

theorem follows_makeClosure {between : List Renaming} {decl decl' : FunDecl} (isInitializer : Bool)
    (renamed : FunDecl.Renamed Renaming.Proper (between ++ w.namings) decl decl') :
    w.Follows m m' (makeClosure decl isInitializer) (makeClosure decl' isInitializer)
      fun u => u.layout.Closures between := by
  refine .bind pair (follows_freshId pair) ?_
  rintro u id _ m₁ m₁' later after rfl
  rw [← namings_of_later pair later] at renamed
  exact follows_scope after (follows_pure after ⟨rfl, rfl, rfl, after.2 ▸ after.1.inSight, renamed⟩)

theorem follows_withoutReturn {between : List Renaming} {f f' : Closure} (alike : w.layout.Closures between f f') :
    w.Follows m m' (withoutReturn f) (withoutReturn f') simulation.Values := by
  rw [withoutReturn, withoutReturn, alike.isInitializer, alike.frames]
  exact .ite (follows_getAt_this pair f.frames 0) (follows_pure pair .nil)

end

end Layout

end LoxLang
