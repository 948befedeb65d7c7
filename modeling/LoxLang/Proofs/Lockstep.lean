import LoxLang.Proofs.Resolving
import LoxLang.Proofs.Visits

/-!
Frames and scopes go in lockstep. Whenever a node of a resolved program is run, the frames in sight are those of the
scopes around the node, in order. The invariant speaks of every function in the machine: the frames it was made in are
those of the scopes in which its declaration was resolved.
-/

namespace LoxLang

variable {σ : Levels} {chain : Frames} {name : String} {d : Nat} {id : FrameId} {m m' : Machine} {value : Value}

open Scope (Region Regions Level Levels Mention Declares depthOf? namesOf entered surplus exprMentions stmtMentions
  stmtsMentions functionRegion thisRegion declaringIn placed)

/-- The fault of a use of `super` that has no depth. -/
def Fault.ofSuper : Fault → Bool
  | .unresolvedSuper => true
  | _ => false

/-! ### Depths and frames -/

/-- The frame of a name that is kept with a depth: that of the nearest scope that declares it. The depth is larger than
that of the frame by the number of scopes on the way that are counted twice, so that it leads to the frame exactly if
there are none. -/
structure Displaced (σ : Levels) (chain : Frames) (name : String) (depth e : Nat) (id : FrameId) : Prop where
  nearest : depthOf? (namesOf (entered σ)) name = some e
  kept : depth = e + surplus (σ.take e)
  here : chain[e]? = some id
  exactly : chain[depth]? = some id ↔ surplus (σ.take e) = 0

theorem Displaced.of_nodup {e : Nat} (nearest : depthOf? (namesOf (entered σ)) name = some e)
    (kept : d = e + surplus (σ.take e)) (here : chain[e]? = some id) (nodup : chain.Nodup) :
    Displaced σ chain name d e id := by
  refine ⟨nearest, kept, here, fun there => ?_, fun none => ?_⟩
  · have inside : e < chain.length := (List.getElem?_eq_some_iff.mp here).1
    have same : e = d := (List.getElem?_inj inside nodup).mp (here.trans there.symm)
    omega
  · rw [kept, none]
    exact here

theorem Displaced.eq_of_straight {mention : Mention} {e : Nat}
    (displaced : Displaced σ chain mention.name.lexeme d e id) (straight : mention.Straight σ)
    (kept : mention.depth = some d) : d = e :=
  Option.some.inj ((straight d kept).symm.trans displaced.nearest)

/-! ### The invariant -/

/-- Every value that is bound has a property. -/
def Bindings.All {α : Type} (P : α → Prop) (b : Bindings α) : Prop := ∀ entry ∈ b.entries, P entry.2

/-- A run, from the start, of a program that was read from a source. The names that the program mentions are settled.
The run may be exact: then the depths that are kept with them are right for the scopes that are entered. -/
structure Run where
  source : Token → Prop
  program : List Stmt
  fuel : Nat
  clock : Readings
  dice : Readings
  spelled : Scope.Spelled source
  parsed : Stmt.AllParsed source program
  settled : Scope.Settles (stmtsMentions [] program)
  exact : Bool
  straight : exact = true → ∀ place ∈ stmtsMentions [] program, place.2.Straight place.1

namespace Run

variable (r : Run)

def start : Machine := Machine.start r.clock r.dice

def Reaches (v : Visit) : Prop := Reached r.program r.fuel r.start v

def mentions : List (Levels × Mention) := stmtsMentions [] r.program

def functions : List FunDecl := Stmt.allFunctions r.program

/-- The faults that never come up in the run. -/
def excludes (fault : Fault) : Bool := bif r.exact then fault.ofScope else fault.ofSuper

/-- An ending that is no way out of a loop or a function, and no fault that never comes up. -/
def calms : Ending → Bool
  | .failed _ | .outOfFuel => true
  | .crashed fault => !r.excludes fault
  | .broke | .returned _ => false

/-- The frame is that of the scope, as far as the names of the scope are set. The frames around it are older. -/
structure FrameOf (m : Machine) (region : Region) (id : FrameId) (outer : Frames) : Prop where
  inside : id < m.frames.size
  bound : ∀ name, region.names.get? name = some true → (m.frame id).contains name = true
  made : MadeFor r.program r.fuel r.start id region.body outer ∨
    region.body = [] ∧ ∀ name isSet, region.names.get? name = some isSet → name = "this" ∨ name = "super"
  older : ∀ other ∈ outer, other < id

/-- The frames of a chain are those of the scopes, in order. -/
def Lockstep (m : Machine) : Levels → Frames → Prop
  | [], chain => chain = globalFrames ∧ 0 < m.frames.size
  | _ :: _, [] => False
  | level :: σ, id :: chain => r.FrameOf m level.region id chain ∧ Lockstep m σ chain

/-- An expression of the program, in some scopes. -/
structure OfExpr (σ : Levels) (e : Expr) : Prop where
  mentions : placed σ (exprMentions e) ⊆ r.mentions
  parsed : e.Parsed r.source

def Place (σ : Levels) : Prop := ∀ level ∈ σ.head?, level.region.body ≠ []

structure OfStmt (σ : Levels) (s : Stmt) : Prop where
  place : Place σ
  mentions : stmtMentions σ s ⊆ r.mentions
  functions : s.functions ⊆ r.functions
  parsed : s.Parsed r.source

structure OfStmts (σ : Levels) (body : List Stmt) : Prop where
  mentions : stmtsMentions σ body ⊆ r.mentions
  functions : Stmt.allFunctions body ⊆ r.functions
  parsed : Stmt.AllParsed r.source body

def OfFunction (σ : Levels) (decl : FunDecl) : Prop :=
  decl ∈ r.functions ∧ r.OfStmts (.scope (functionRegion decl.params decl.body) :: σ) decl.body

/-- A method that is not bound to an object: the frames it was made in are those of the scopes around it, but that of
`this`. -/
def MethodOk (m : Machine) (f : Closure) : Prop :=
  ∃ object σ, object.region = thisRegion ∧ r.OfFunction (object :: σ) f.decl ∧ r.Lockstep m σ f.frames

/-- A function: the frames it was made in are those of the scopes around it. An initializer finds its object. -/
def FunctionOk (m : Machine) (f : Closure) : Prop :=
  (∃ σ, r.OfFunction σ f.decl ∧ r.Lockstep m σ f.frames) ∧
    (f.isInitializer = true → ∃ id outer, f.frames = id :: outer ∧ (m.frame id).contains thisName = true)

/-- A class with all methods that are found in it. -/
def ClassOk (m : Machine) (c : Class) : Prop :=
  (∀ name f, c.findMethod? name = some (.closure f) → r.MethodOk m f) ∧
    ∀ metaclass, c.metaclass = some metaclass → ∀ name f, metaclass.findMethod? name = some (.closure f) → r.MethodOk m f

/-- A value with all functions in it. -/
def ValueOk (m : Machine) : Value → Prop
  | .function f => r.FunctionOk m f
  | .classObject c => r.ClassOk m c
  | .object o => ∀ c, o.madeBy = some c → r.ClassOk m c
  | .trait t => t.methods.All (r.MethodOk m)
  | _ => True

/-- A machine with all values in it. -/
structure MachineOk (m : Machine) : Prop where
  frames : ∀ id, (m.frame id).All (r.ValueOk m)
  fields : ∀ id, (m.fieldsOf id).All (r.ValueOk m)
  arrays : ∀ id, ∀ value ∈ (m.elements id).toList, r.ValueOk m value

variable {r}

theorem excludes_of_harmless {fault : Fault} (harmless : fault.ofScope = false) : r.excludes fault = false := by
  unfold excludes
  cases r.exact with
  | true => exact harmless
  | false =>
    cases fault with
    | unresolvedSuper => exact nomatch harmless
    | _ => rfl

theorem excludes_super : r.excludes .unresolvedSuper = true := by
  unfold excludes
  cases r.exact <;> rfl

theorem Lockstep.inside {outer : Frames} (lockstep : r.Lockstep m σ (id :: outer)) : id < m.frames.size := by
  cases σ with
  | nil =>
    obtain ⟨chain, nonempty⟩ := lockstep
    obtain ⟨rfl, -⟩ := List.cons.inj chain
    exact nonempty
  | cons => exact lockstep.1.inside

theorem Lockstep.below (lockstep : r.Lockstep m σ chain) : ∀ id ∈ chain, id < m.frames.size := by
  cases chain with
  | nil => exact nofun
  | cons =>
    have inside := lockstep.inside
    intro other member
    rcases List.mem_cons.mp member with rfl | member
    · exact inside
    · cases σ with
      | nil =>
        obtain ⟨-, rfl⟩ := List.cons.inj lockstep.1
        exact absurd member List.not_mem_nil
      | cons => exact Nat.lt_trans (lockstep.1.older other member) inside

theorem Lockstep.nodup (lockstep : r.Lockstep m σ chain) : chain.Nodup := by
  induction σ generalizing chain with
  | nil =>
    rw [lockstep.1]
    simp [globalFrames]
  | cons _ _ ih =>
    cases chain with
    | nil => exact List.nodup_nil
    | cons id =>
      refine List.nodup_cons.mpr ⟨fun member => ?_, ih lockstep.2⟩
      exact Nat.lt_irrefl id (lockstep.1.older id member)

theorem Lockstep.frameOf (lockstep : r.Lockstep m σ chain) {region : Region} (place : (entered σ)[d]? = some region) :
    ∃ id, chain[d]? = some id ∧ r.FrameOf m region id (chain.drop (d + 1)) := by
  induction σ generalizing chain d with
  | nil => exact nomatch place
  | cons inner _ ih =>
    cases chain with
    | nil => exact absurd lockstep id
    | cons id =>
      cases d with
      | zero =>
        obtain rfl : inner.region = region := by simpa [entered] using place
        exact ⟨id, rfl, by simpa using lockstep.1⟩
      | succ => simpa using ih lockstep.2 (by simpa [entered] using place)

theorem Lockstep.contains (lockstep : r.Lockstep m σ chain) (declared : Declares (entered σ) d name true) :
    ∃ id, chain[d]? = some id ∧ (m.frame id).contains name = true := by
  obtain ⟨region, place, set⟩ := declared
  obtain ⟨id, there, frame⟩ := lockstep.frameOf place
  exact ⟨id, there, frame.bound name set⟩

theorem Place.isOpen (place : Place σ) : Scope.Open σ := by
  intro level isHead
  cases level with
  | scope => rfl
  | own => exact absurd rfl (place .own isHead)

/-- The innermost scope may declare a name, if the innermost frame has it whenever it is set. -/
theorem Lockstep.declaring (lockstep : r.Lockstep m σ chain) (place : Place σ) (name : String) (isSet : Bool)
    (bound : isSet = true → ∀ id outer, chain = id :: outer → (m.frame id).contains name = true) :
    r.Lockstep m (declaringIn name isSet σ) chain := by
  cases σ with
  | nil => exact lockstep
  | cons level =>
    cases level with
    | own => exact absurd rfl (place .own rfl)
    | scope region =>
      cases chain with
      | nil => exact lockstep
      | cons id outer =>
        obtain ⟨⟨inside, before, made, older⟩, rest⟩ := lockstep
        refine ⟨⟨inside, fun other set => ?_, .inl ?_, older⟩, rest⟩
        · by_cases same : other = name
          · subst same
            rw [Level.region, Bindings.get?_put_self] at set
            exact bound (Option.some.inj set) id outer rfl
          · rw [Level.region, Bindings.get?_put_of_ne _ _ same] at set
            exact before other set
        · exact made.resolve_right fun empty => place (.scope region) rfl empty.1

section
variable {m m' : Machine} (grows : m.Grows m')
include grows

theorem FrameOf.mono {region : Region} {outer : Frames} (frame : r.FrameOf m region id outer) :
    r.FrameOf m' region id outer :=
  ⟨Nat.lt_of_lt_of_le frame.inside grows.size, fun name set => grows.bound id name (frame.bound name set), frame.made,
    frame.older⟩

theorem Lockstep.mono (lockstep : r.Lockstep m σ chain) : r.Lockstep m' σ chain := by
  induction σ generalizing chain with
  | nil => exact ⟨lockstep.1, Nat.lt_of_lt_of_le lockstep.2 grows.size⟩
  | cons _ _ ih =>
    cases chain with
    | nil => exact lockstep
    | cons => exact ⟨lockstep.1.mono grows, ih lockstep.2⟩

theorem MethodOk.mono {f : Closure} (ok : r.MethodOk m f) : r.MethodOk m' f := by
  obtain ⟨object, σ, isThis, code, lockstep⟩ := ok
  exact ⟨object, σ, isThis, code, lockstep.mono grows⟩

theorem FunctionOk.mono {f : Closure} (ok : r.FunctionOk m f) : r.FunctionOk m' f := by
  obtain ⟨⟨σ, code, lockstep⟩, object⟩ := ok
  refine ⟨⟨σ, code, lockstep.mono grows⟩, fun isInitializer => ?_⟩
  obtain ⟨id, outer, chain, bound⟩ := object isInitializer
  exact ⟨id, outer, chain, grows.bound id thisName bound⟩

theorem ClassOk.mono {c : Class} (ok : r.ClassOk m c) : r.ClassOk m' c :=
  ⟨fun name f found => (ok.1 name f found).mono grows,
    fun metaclass isMeta name f found => (ok.2 metaclass isMeta name f found).mono grows⟩

theorem ValueOk.mono (ok : r.ValueOk m value) : r.ValueOk m' value := by
  cases value with
  | function => exact FunctionOk.mono grows ok
  | classObject => exact ClassOk.mono grows ok
  | object => exact fun c madeBy => (ok c madeBy).mono grows
  | trait => exact fun entry member => (ok entry member).mono grows
  | _ => exact trivial

theorem MachineOk.next (frames : ∀ id, (m'.frame id).All (r.ValueOk m))
    (fields : ∀ id, (m'.fieldsOf id).All (r.ValueOk m))
    (arrays : ∀ id, ∀ value ∈ (m'.elements id).toList, r.ValueOk m value) : r.MachineOk m' :=
  ⟨fun id entry member => (frames id entry member).mono grows, fun id entry member => (fields id entry member).mono grows,
    fun id value member => (arrays id value member).mono grows⟩

end

theorem ValueOk.of_frames (ok : r.ValueOk m value) (same : m'.frames = m.frames) :
    r.ValueOk m' value := ok.mono (.of_frames same)

theorem Lockstep.of_frames (lockstep : r.Lockstep m σ chain) (same : m'.frames = m.frames) :
    r.Lockstep m' σ chain := lockstep.mono (.of_frames same)

theorem valueOk_of_isPlain (isPlain : value.isPlain = true) : r.ValueOk m value := by
  cases value with
  | function | classObject | object | trait => exact nomatch isPlain
  | _ => exact trivial

end Run

namespace Bindings

variable {α : Type} {P : α → Prop}

theorem all_empty : (empty : Bindings α).All P := nofun

theorem All.put {b : Bindings α} (all : b.All P) (name : String) {value : α} (new : P value) :
    (b.put name value).All P := by
  cases b with
  | mk entries =>
    simp only [All, Bindings.put] at all ⊢
    induction entries with
    | nil => simpa [putEntry] using new
    | cons entry _ ih =>
      have others := ih fun other member => all other (List.mem_cons_of_mem entry member)
      simp only [putEntry]
      split
      · intro other member
        rcases List.mem_cons.mp member with rfl | member
        · exact new
        · exact all other (List.mem_cons_of_mem entry member)
      · intro other member
        rcases List.mem_cons.mp member with rfl | member
        · exact all _ List.mem_cons_self
        · exact others other member

theorem All.get? {b : Bindings α} (all : b.All P) {value : α} (bound : b.get? name = some value) : P value := by
  obtain ⟨key, member⟩ : ∃ key, (key, value) ∈ b.entries := by
    simp only [Bindings.get?] at bound
    obtain ⟨before, after, split, -⟩ := List.lookup_eq_some_iff.mp bound
    exact ⟨name, by simp [split]⟩
  exact all (key, value) member

theorem All.putAll {b : Bindings α} (all : b.All P) {entries : List (String × α)} (new : ∀ entry ∈ entries, P entry.2) :
    (b.putAll entries).All P := by
  induction entries generalizing b with
  | nil => exact all
  | cons entry _ ih =>
    exact ih (all.put entry.1 (new entry List.mem_cons_self)) fun other member =>
      new other (List.mem_cons_of_mem entry member)

theorem All.imp {Q : α → Prop} {b : Bindings α} (all : b.All P) (weaker : ∀ a, P a → Q a) : b.All Q :=
  fun entry member => weaker entry.2 (all entry member)

end Bindings

theorem all_includeMethods {P : Closure → Prop} {methods taken : Bindings Closure} {entries : List (String × Closure)}
    (old : methods.All P) (new : ∀ entry ∈ entries, P entry.2) (included : includeMethods methods entries = .ok taken) :
    taken.All P := by
  induction entries generalizing methods with
  | nil =>
    cases included
    exact old
  | cons entry _ ih =>
    simp only [includeMethods] at included
    split at included
    · cases included
    · exact ih (old.put entry.1 (new entry List.mem_cons_self)) (fun e member => new e (List.mem_cons_of_mem _ member))
        included

namespace Run

variable {r : Run} {m : Machine}

/-! ### Changes to the machine -/

theorem MachineOk.aside (ok : r.MachineOk m) (same : m'.frames = m.frames)
    (fields : ∀ id, (m'.fieldsOf id).All (r.ValueOk m))
    (arrays : ∀ id, ∀ value ∈ (m'.elements id).toList, r.ValueOk m value) : r.MachineOk m' := by
  have grows : m.Grows m' := .of_frames same
  refine .next grows (fun id => ?_) fields arrays
  rw [Machine.frame, same]
  exact ok.frames id

theorem MachineOk.rescope (ok : r.MachineOk m) (chain : Frames) : r.MachineOk { m with scope := chain } :=
  ok.aside rfl ok.fields ok.arrays

theorem MachineOk.push (ok : r.MachineOk m) {bindings : Bindings Value} (new : bindings.All (r.ValueOk m)) :
    r.MachineOk { m with frames := m.frames.push bindings } := by
  exact .next (m.grows_push bindings) (all_push ok.frames new) ok.fields ok.arrays

/-- A value that is bound must be in order once it is bound. -/
theorem MachineOk.bind_self (ok : r.MachineOk m) (id : FrameId) (name : String)
    (new : r.ValueOk (m.bind id name value) value) : r.MachineOk (m.bind id name value) := by
  have grows := m.grows_bind id name value
  refine ⟨all_modify (fun other => ?_) id fun _ old => old.put name new,
    fun other => (ok.fields other).imp fun _ fine => fine.mono grows, fun other element member =>
      (ok.arrays other element member).mono grows⟩
  exact (ok.frames other).imp fun _ fine => fine.mono grows

theorem MachineOk.bind (ok : r.MachineOk m) (id : FrameId) (name : String) (new : r.ValueOk m value) :
    r.MachineOk (m.bind id name value) := ok.bind_self id name (new.mono (m.grows_bind id name value))

theorem MachineOk.setField (ok : r.MachineOk m) (id : Nat) (name : String) (new : r.ValueOk m value) :
    r.MachineOk { m with fields := m.fields.modify id (·.put name value) } :=
  ok.aside rfl (all_modify ok.fields id fun _ old => old.put name new) ok.arrays

theorem MachineOk.newObject (ok : r.MachineOk m) : r.MachineOk { m with fields := m.fields.push .empty } :=
  ok.aside rfl (all_push ok.fields Bindings.all_empty) ok.arrays

theorem MachineOk.newArray (ok : r.MachineOk m) {elements : Array Value} (new : ∀ value ∈ elements.toList, r.ValueOk m value) :
    r.MachineOk { m with arrays := m.arrays.push elements } :=
  ok.aside rfl ok.fields (all_push (P := fun xs : Array Value => ∀ value ∈ xs.toList, r.ValueOk m value) ok.arrays new)

theorem MachineOk.setElement (ok : r.MachineOk m) (id cell : Nat) (new : r.ValueOk m value) :
    r.MachineOk { m with arrays := m.arrays.modify id (·.setIfInBounds cell value) } :=
  ok.aside rfl ok.fields (all_modify (P := fun xs : Array Value => ∀ value ∈ xs.toList, r.ValueOk m value) ok.arrays id
    fun _ => all_setIfInBounds cell new)

end Run
end LoxLang
