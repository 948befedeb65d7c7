import LoxLang.Proofs.LockstepKept
import LoxLang.Proofs.ScopeRestored

/-!
What can be said of every value that a machine holds. Evaluation takes values from the machine, and makes new classes
and traits by declarations only. So a law that the values of the start obey, and the classes and traits made by the
declarations that are run, is obeyed by all values, at every node that is run.

Two computations that differ only in what they do from machines that do not obey the law are compared step by step. That
they end alike shows that no such machine is ever met.
-/

namespace LoxLang

open Eval

variable {value : Value} {m' : Machine}

/-- What is required of classes and of traits. -/
structure Rule where
  ofClass : Class → Prop
  ofTrait : Trait → Prop

namespace Rule

variable (rule : Rule)

def Allows : Value → Prop
  | .classObject c => rule.ofClass c
  | .object o => ∀ c, o.madeBy = some c → rule.ofClass c
  | .trait t => rule.ofTrait t
  | _ => True

structure Holds (m : Machine) : Prop where
  frames : ∀ id, (m.frame id).All rule.Allows
  fields : ∀ id, (m.fieldsOf id).All rule.Allows
  arrays : ∀ id, ∀ value ∈ (m.elements id).toList, rule.Allows value

end Rule

/-- What is required of values. Data, functions and arrays are always allowed. A class that is allowed makes instances
that are, and what is read from a class or an instance that is allowed is allowed. -/
structure Law where
  ofClass : Class → Prop
  ofTrait : Trait → Prop
  ofInstance : Instance → Prop
  ofBuiltin : Builtin → Prop
  makes : ∀ c id, ofClass c → ofInstance ⟨id, some c⟩
  methods : ∀ o c name b, ofInstance o → o.madeBy = some c → c.findMethod? name = some (.builtin b) → ofBuiltin b
  ownMethods : ∀ c k name b, ofClass c → c.metaclass = some k → k.findMethod? name = some (.builtin b) → ofBuiltin b

namespace Law

variable (law : Law)

def Allows : Value → Prop
  | .classObject c => law.ofClass c
  | .object o => law.ofInstance o
  | .trait t => law.ofTrait t
  | .builtin b => law.ofBuiltin b
  | _ => True

structure Holds (m : Machine) : Prop where
  frames : ∀ id, (m.frame id).All law.Allows
  fields : ∀ id, (m.fieldsOf id).All law.Allows
  arrays : ∀ id, ∀ value ∈ (m.elements id).toList, law.Allows value

variable {law} {m : Machine}

theorem allows_of_isPlain (isPlain : value.isPlain = true) : law.Allows value := by
  cases value with
  | classObject | object | trait | builtin => cases isPlain
  | _ => trivial

/-! ### Changes to the machine -/

theorem Holds.aside (holds : law.Holds m) (frames : m'.frames = m.frames) (fields : m'.fields = m.fields)
    (arrays : m'.arrays = m.arrays) : law.Holds m' := by
  refine ⟨fun id => ?_, fun id => ?_, fun id => ?_⟩
  · rw [Machine.frame, frames]
    exact holds.frames id
  · rw [Machine.fieldsOf, fields]
    exact holds.fields id
  · rw [Machine.elements, arrays]
    exact holds.arrays id

theorem Holds.scoped (holds : law.Holds m) (chain : Frames) : law.Holds { m with scope := chain } :=
  holds.aside rfl rfl rfl

theorem Holds.push (holds : law.Holds m) {bindings : Bindings Value} (new : bindings.All law.Allows) :
    law.Holds { m with frames := m.frames.push bindings } :=
  ⟨all_push holds.frames new, holds.fields, holds.arrays⟩

theorem Holds.bind (holds : law.Holds m) (id : FrameId) (name : String) (new : law.Allows value) :
    law.Holds (m.bind id name value) :=
  ⟨all_modify holds.frames id fun _ old => old.put name new, holds.fields, holds.arrays⟩

theorem Holds.setField (holds : law.Holds m) (id : Nat) (name : String) (new : law.Allows value) :
    law.Holds { m with fields := m.fields.modify id (·.put name value) } :=
  ⟨holds.frames, all_modify holds.fields id fun _ old => old.put name new, holds.arrays⟩

theorem Holds.newObject (holds : law.Holds m) : law.Holds { m with fields := m.fields.push .empty } :=
  ⟨holds.frames, all_push holds.fields Bindings.all_empty, holds.arrays⟩

theorem Holds.newArray (holds : law.Holds m) {elements : Array Value}
    (new : ∀ value ∈ elements.toList, law.Allows value) : law.Holds { m with arrays := m.arrays.push elements } :=
  ⟨holds.frames, holds.fields, all_push (P := fun xs : Array Value => ∀ value ∈ xs.toList, law.Allows value) holds.arrays new⟩

theorem Holds.setElement (holds : law.Holds m) (id cell : Nat) (new : law.Allows value) :
    law.Holds { m with arrays := m.arrays.modify id (·.setIfInBounds cell value) } :=
  ⟨holds.frames, holds.fields, all_modify (P := fun xs : Array Value => ∀ value ∈ xs.toList, law.Allows value) holds.arrays id
    fun _ => all_setIfInBounds cell new⟩

theorem Holds.allows_frame (holds : law.Holds m) (id : FrameId) (name : String) :
    law.Allows (((m.frame id).get? name).getD .nil) := by
  cases bound : (m.frame id).get? name with
  | none => trivial
  | some => exact (holds.frames id).get? bound

/-! ### Computations that keep the law -/

variable {α β : Type} {Q : α → Prop} {R : β → Prop}

variable (law) in
def AllowsEnding (ending : Ending) : Prop := ∀ value, ending = .returned value → law.Allows value

variable (law) in
/-- A computation ended with a value that has a property, and left a machine in which everything is allowed. -/
def Kept (Q : α → Prop) : EStateM.Result Ending Machine α → Prop
  | .ok a m' => Q a ∧ law.Holds m'
  | .error ending m' => law.AllowsEnding ending ∧ law.Holds m'

variable (law) in
/-- Two computations end alike from a machine, and keep the law. -/
structure Tracks (m : Machine) (x y : Eval α) (Q : α → Prop) : Prop where
  same : x m = y m
  kept : law.Kept Q (x m)

variable (law) in
/-- A computation keeps the law from a machine. -/
abbrev Sound (m : Machine) (x : Eval α) (Q : α → Prop) : Prop := law.Tracks m x x Q

theorem sound_of_ok {x : Eval α} {a : α} (ends : x m = .ok a m') (result : Q a) (holds : law.Holds m') :
    law.Sound m x Q := by
  refine ⟨rfl, ?_⟩
  rw [ends]
  exact ⟨result, holds⟩

theorem sound_of_error {x : Eval α} {ending : Ending} (ends : x m = .error ending m')
    (allowed : law.AllowsEnding ending) (holds : law.Holds m') : law.Sound m x Q := by
  refine ⟨rfl, ?_⟩
  rw [ends]
  exact ⟨allowed, holds⟩

theorem allowsEnding_of_isError {ending : Ending} (isError : ending.isError = true) : law.AllowsEnding ending := by
  rintro value rfl
  cases isError

theorem Tracks.bind {x x' : Eval α} {f f' : α → Eval β} (first : law.Tracks m x x' Q)
    (next : ∀ a m', x m = .ok a m' → Q a → law.Holds m' → law.Tracks m' (f a) (f' a) R) :
    law.Tracks m (x >>= f) (x' >>= f') R := by
  obtain ⟨same, kept⟩ := first
  cases ends : x m with
  | error =>
    rw [ends] at same kept
    refine ⟨?_, ?_⟩
    · rw [bind_of_error ends, bind_of_error same.symm]
    · rw [bind_of_error ends]
      exact kept
  | ok a m' =>
    rw [ends] at same kept
    have rest := next a m' ends kept.1 kept.2
    refine ⟨?_, ?_⟩
    · rw [bind_of_ok ends, bind_of_ok same.symm]
      exact rest.same
    · rw [bind_of_ok ends]
      exact rest.kept

theorem Tracks.ite {p : Prop} [Decidable p] {x x' y y' : Eval α} (yes : law.Tracks m x x' Q)
    (no : law.Tracks m y y' Q) : law.Tracks m (if p then x else y) (if p then x' else y') Q := by
  split
  · exact yes
  · exact no

theorem tracks_get {f f' : Machine → Eval α} (next : law.Tracks m (f m) (f' m) Q) :
    law.Tracks m (get >>= f) (get >>= f') Q := ⟨next.same, next.kept⟩

theorem tracks_scope {f f' : Frames → Eval α} (next : law.Tracks m (f m.scope) (f' m.scope) Q) :
    law.Tracks m (scope >>= f) (scope >>= f') Q := ⟨next.same, next.kept⟩

theorem Tracks.within {chain : Frames} {x y : Eval α} (tracks : law.Tracks { m with scope := chain } x y Q) :
    law.Tracks m (Eval.within chain x) (Eval.within chain y) Q := by
  obtain ⟨same, kept⟩ := tracks
  refine ⟨by simp only [Eval.within, same], ?_⟩
  simp only [Eval.within]
  cases ends : x { m with scope := chain } with
  | ok =>
    rw [ends] at kept
    exact ⟨kept.1, kept.2.scoped _⟩
  | error =>
    rw [ends] at kept
    exact ⟨kept.1, kept.2.scoped _⟩

theorem Tracks.catchReturn {x y : Eval Unit} {otherwise : Eval Value} (tracks : law.Tracks m x y fun _ => True)
    (else_ : ∀ m', law.Holds m' → law.Sound m' otherwise law.Allows) :
    law.Tracks m (Eval.catchReturn x otherwise) (Eval.catchReturn y otherwise) law.Allows := by
  obtain ⟨same, kept⟩ := tracks
  refine ⟨by simp only [Eval.catchReturn, same], ?_⟩
  simp only [Eval.catchReturn]
  cases ends : x m with
  | ok _ m' =>
    rw [ends] at kept
    exact (else_ m' kept.2).kept
  | error ending =>
    rw [ends] at kept
    cases ending with
    | returned value => exact ⟨kept.1 value rfl, kept.2⟩
    | _ => exact kept

/-! ### Elementary steps -/

theorem sound_pure (holds : law.Holds m) {a : α} (result : Q a) : law.Sound m (pure a) Q :=
  sound_of_ok rfl result holds

section
variable (holds : law.Holds m)
include holds

theorem sound_fail (token : Token) (cause : Cause) : law.Sound m (fail token cause) Q :=
  sound_of_error rfl (allowsEnding_of_isError rfl) holds

theorem sound_crash (fault : Fault) : law.Sound m (crash fault) Q :=
  sound_of_error rfl (allowsEnding_of_isError rfl) holds

theorem sound_newFrame {bindings : Bindings Value} (new : bindings.All law.Allows) :
    law.Sound m (newFrame bindings) fun _ => True := sound_of_ok rfl trivial (holds.push new)

theorem sound_define (name : String) (new : law.Allows value) : law.Sound m (define name value) fun _ => True := by
  refine tracks_scope ?_
  split
  · exact sound_pure holds trivial
  · exact sound_of_ok rfl trivial (holds.bind _ name new)

theorem sound_ancestor (chain : Frames) (depth : Nat) : law.Sound m (ancestor chain depth) fun _ => True := by
  unfold ancestor
  split
  · exact sound_pure holds trivial
  · exact sound_crash holds _

theorem sound_getAt (chain : Frames) (depth : Nat) (name : String) :
    law.Sound m (getAt chain depth name) law.Allows := by
  refine (sound_ancestor holds chain depth).bind ?_
  intro id m' _ _ holds
  exact tracks_get (sound_pure holds (holds.allows_frame id name))

theorem sound_assignAt (chain : Frames) (depth : Nat) (name : String) (new : law.Allows value) :
    law.Sound m (assignAt chain depth name value) fun _ => True := by
  refine (sound_ancestor holds chain depth).bind ?_
  intro id m' _ _ holds
  exact sound_of_ok rfl trivial (holds.bind id name new)

theorem sound_getNamed (chain : Frames) (name : Token) : law.Sound m (getNamed chain name) law.Allows := by
  refine tracks_get ?_
  split
  · rename_i value found
    obtain ⟨id, -, bound⟩ := Option.bind_eq_some_iff.mp found
    exact sound_pure holds ((holds.frames id).get? bound)
  · exact sound_fail holds name _

theorem sound_assignNamed (chain : Frames) (name : Token) (new : law.Allows value) :
    law.Sound m (assignNamed chain name value) fun _ => True := by
  refine tracks_get ?_
  split
  · exact sound_of_ok rfl trivial (holds.bind _ name.lexeme new)
  · exact sound_fail holds name _

theorem sound_readName (name : Token) (depth : Option Nat) : law.Sound m (readName name depth) law.Allows := by
  cases depth with
  | none => exact sound_getNamed holds _ _
  | some => exact tracks_scope (sound_getAt holds _ _ _)

theorem sound_assignName (name : Token) (depth : Option Nat) (new : law.Allows value) :
    law.Sound m (assignName name depth value) fun _ => True := by
  cases depth with
  | none => exact sound_assignNamed holds _ _ new
  | some => exact tracks_scope (sound_assignAt holds _ _ _ new)

theorem sound_makeClosure (decl : FunDecl) (isInitializer : Bool) :
    law.Sound m (makeClosure decl isInitializer) fun _ => True :=
  sound_of_ok rfl trivial (holds.aside rfl rfl rfl)

end

/-! ### The law all along a run -/

/-- All values that are held, and those that are returned, obey the law. -/
def upkeep (law : Law) : Upkeep Unit where
  Later _ _ := True
  Allows _ := law.Allows
  Provides _ method := ∀ b, method = .builtin b → law.ofBuiltin b
  Holds _ := law.Holds
  Way _ ending m := law.AllowsEnding ending ∧ law.Holds m
  later_refl _ := trivial
  later_trans _ _ := trivial
  mono _ allowed := allowed
  plain := allows_of_isPlain
  makes id allowed := law.makes _ id allowed
  methods allowed made found b same := law.methods _ _ _ b allowed made (same ▸ found)
  ownMethods allowed isMeta found b same := law.ownMethods _ _ _ b allowed isMeta (same ▸ found)
  builtin provided := provided _ rfl
  fields holds found := (holds.fields _).get? found
  elements holds member := holds.arrays _ _ member
  aside _ _ _ _ holds := ⟨(), trivial, holds.aside rfl rfl rfl⟩
  addArray holds new := ⟨(), trivial, holds.newArray new⟩
  setElement id cell _ holds new := ⟨(), trivial, holds.setElement id cell new⟩
  setField id name _ holds new := ⟨(), trivial, holds.setField id name new⟩
  addObject holds := ⟨(), trivial, holds.newObject⟩
  way_earlier _ way := way
  failed _ holds := ⟨allowsEnding_of_isError rfl, holds⟩
  crashed holds _ := ⟨allowsEnding_of_isError rfl, holds⟩
  outOfFuel holds := ⟨by rintro _ ⟨⟩, holds⟩
  bindThis holds _ new :=
    ⟨(), _, _, rfl, trivial, (holds.push (Bindings.all_empty.put thisName new)).aside rfl rfl rfl, trivial, rfl⟩

variable {x y : Eval α} {P : Unit → α → α → Prop}

theorem Tracks.follows (tracks : law.Tracks m x y Q) (result : ∀ a, Q a → P () a a) :
    law.upkeep.simulation.Follows () m m x y P := by
  obtain ⟨same, kept⟩ := tracks
  rw [Simulation.Follows, ← same]
  cases ends : x m with
  | ok a =>
    rw [ends] at kept
    exact .ok trivial kept.2 (result a kept.1)
  | error =>
    rw [ends] at kept
    exact .error kept

theorem tracks_of_follows (follows : law.upkeep.simulation.Follows () m m x y P)
    (result : ∀ a a', P () a a' → a' = a ∧ Q a) : law.Tracks m x y Q := by
  unfold Simulation.Follows at follows
  generalize ends : x m = r, ends' : y m = r' at follows
  cases follows with
  | ok _ holds related =>
    obtain ⟨rfl, fine⟩ := result _ _ related
    exact ⟨ends.trans ends'.symm, ends ▸ ⟨fine, holds⟩⟩
  | error way => exact ⟨ends.trans ends'.symm, ends ▸ way⟩

end Law

/-! ### Rules as laws -/

namespace Rule

/-- The law that allows what a rule allows. -/
def law (rule : Rule) : Law where
  ofClass := rule.ofClass
  ofTrait := rule.ofTrait
  ofInstance o := ∀ c, o.madeBy = some c → rule.ofClass c
  ofBuiltin _ := True
  makes := by
    rintro c id allowed _ ⟨⟩
    exact allowed
  methods _ _ _ _ _ _ _ := trivial
  ownMethods _ _ _ _ _ _ _ := trivial

variable (rule : Rule)

theorem allows_law : rule.law.Allows = rule.Allows := by
  funext value
  cases value <;> rfl

theorem holds_law {m : Machine} : rule.law.Holds m ↔ rule.Holds m := by
  constructor
  · rintro ⟨frames, fields, arrays⟩
    rw [allows_law] at frames fields arrays
    exact ⟨frames, fields, arrays⟩
  · rintro ⟨frames, fields, arrays⟩
    rw [← allows_law] at frames fields arrays
    exact ⟨frames, fields, arrays⟩

end Rule

end LoxLang
