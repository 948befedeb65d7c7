import LoxLang.Proofs.RenamedRuns

/-!
Heaps without endless chains. At every point of a run, whatever the program and the depths in it, the frame around each
frame is an older one and the class that each class extends is an older one. So a search for a variable ends with the
global frame, and a search for a method with a class that extends none, within as many steps as there are frames and
objects.
-/

namespace LoxLang

variable {next : Nat → Option Nat} {n : Nat} {c : Class} {value : Value}

/-! ### Following a pointer -/

/-- The numbers that are met by following a pointer, if it ends among the first few. -/
def follow (next : Nat → Option Nat) : Nat → Nat → Option (List Nat)
  | 0, _ => none
  | n + 1, i =>
    match next i with
    | none => some [i]
    | some j => (follow next n j).map (i :: ·)

/-- Follows a pointer to the first number of a kind. Nothing is known if the search does not end within a number of
steps. -/
def searchAlong (next : Nat → Option Nat) (found : Nat → Bool) : Nat → Nat → Option (Option Nat)
  | 0, _ => none
  | n + 1, i =>
    if found i then some (some i)
    else
      match next i with
      | none => some none
      | some j => searchAlong next found n j

theorem follow_last {i : Nat} (last : next i = none) (lt : i < n) : follow next n i = some [i] := by
  obtain ⟨n, rfl⟩ := Nat.exists_eq_add_of_lt lt
  simp only [follow, last]

theorem follow_step {i j : Nat} {rest : List Nat} (step : next i = some j) (older : j < i) (lt : i < n)
    (others : ∀ n, j < n → follow next n j = some rest) : follow next n i = some (i :: rest) := by
  cases n with
  | zero => omega
  | succ n =>
    simp only [follow, step]
    rw [others n (by omega), Option.map_some]

/-- A search along a pointer that ends is a search through the numbers that it meets. -/
theorem searchAlong_of_follow (found : Nat → Bool) {i : Nat} {met : List Nat} (follows : follow next n i = some met) :
    searchAlong next found n i = some (met.find? found) := by
  induction n generalizing i met with
  | zero => cases follows
  | succ n ih =>
    simp only [follow] at follows
    simp only [searchAlong]
    cases step : next i with
    | none =>
      simp only [step, Option.some.injEq] at follows
      subst follows
      by_cases here : found i <;> simp [here]
    | some =>
      simp only [step, Option.map_eq_some_iff] at follows
      obtain ⟨rest, follows, rfl⟩ := follows
      by_cases here : found i
      · simp [here]
      · simp [here, ih follows]

/-! ### What a value leads to -/

namespace Class

def lineage : Class → List Nat
  | ⟨id, _, none, _, _⟩ => [id]
  | ⟨id, _, some base, _, _⟩ => id :: base.lineage

/-- The classes behind a class: itself, and those behind the one that it extends and the one that holds its own
methods. -/
inductive Behind : Class → Class → Prop
  | self (c : Class) : Behind c c
  | superclass {c base d : Class} (isBase : c.superclass = some base) (behind : Behind base d) : Behind c d
  | metaclass {c own d : Class} (holds : c.metaclass = some own) (behind : Behind own d) : Behind c d

end Class

namespace Value

/-- The classes that a value leads to. -/
inductive HasClass : Value → Class → Prop
  | classObject {c d : Class} (behind : c.Behind d) : HasClass (.classObject c) d
  | object {id : Nat} {c d : Class} (behind : c.Behind d) : HasClass (.object ⟨id, some c⟩) d

/-- The functions that a value leads to: itself, also if it is a method of an object, and the methods of its classes and
of a trait. -/
inductive HasClosure : Value → Closure → Prop
  | function (f : Closure) : HasClosure (.function f) f
  | method {value : Value} {c : Class} {name : String} {f : Closure} (has : value.HasClass c)
    (isMethod : (name, Method.closure f) ∈ c.methods.entries) : HasClosure value f
  | traitMethod {t : Trait} {name : String} {f : Closure} (isMethod : (name, f) ∈ t.methods.entries) :
    HasClosure (.trait t) f

end Value

namespace Machine

/-- The values in the variables, the fields and the arrays of a machine. -/
inductive Keeps (m : Machine) : Value → Prop
  | binding {id : FrameId} {name : String} {value : Value} (bound : (name, value) ∈ (m.frame id).entries) :
    Keeps m value
  | field {id : Nat} {name : String} {value : Value} (bound : (name, value) ∈ (m.fieldsOf id).entries) : Keeps m value
  | element {id : Nat} {value : Value} (isElement : value ∈ (m.elements id).toList) : Keeps m value

/-! ### Heaps in order -/

/-- The chain is what is met from its first frame on by going to the frame around each, and it ends with the global
frame. So to look for a name along the way ends, and it finds the frame where the name is looked up. -/
def ReachesGlobals (m : Machine) (enclosing : FrameId → Option FrameId) (chain : Frames) : Prop :=
  ∃ first : FrameId, follow enclosing m.frames.size first = some chain ∧ chain.getLast? = some 0 ∧
    ∀ name, searchAlong enclosing (fun id => (m.frame id).contains name) m.frames.size first =
      some (m.findFrame? chain name)

/-- The number of the class that a class of a table extends. -/
def extended (classes : Nat → Option Class) (id : Nat) : Option Nat :=
  (classes id).bind fun c => c.superclass.map Class.id

/-- The method of a class of a table, not counting those of the classes that it extends. -/
def ownMethod? (classes : Nat → Option Class) (name : String) (id : Nat) : Option Method :=
  (classes id).bind fun c => c.methods.get? name

/-- The class is the one of its number, and the way from it to the classes that are extended ends. So to look for a
method along the way ends, and it finds the class whose method is found. -/
def EndsLineage (m : Machine) (classes : Nat → Option Class) (c : Class) : Prop :=
  classes c.id = some c ∧ follow (extended classes) m.fields.size c.id = some c.lineage ∧
    ∀ name, ∃ owner : Option Nat,
      searchAlong (extended classes) (fun id => (ownMethod? classes name id).isSome) m.fields.size c.id = some owner ∧
        c.findMethod? name = owner.bind (ownMethod? classes name)

/-- A heap in order: from the frames in sight, and from the frames of every function that is kept or at hand, the global
frame is reached, and from every class that is kept or at hand the way to those that are extended ends. -/
structure Founded (m : Machine) (atHand : List Value) (enclosing : FrameId → Option FrameId)
    (classes : Nat → Option Class) : Prop where
  inSight : m.ReachesGlobals enclosing m.scope
  closures : ∀ value f, m.Keeps value ∨ value ∈ atHand → value.HasClosure f → m.ReachesGlobals enclosing f.frames
  lineages : ∀ value c, m.Keeps value ∨ value ∈ atHand → value.HasClass c → m.EndsLineage classes c

end Machine

/-! ### Machines with a layout -/

namespace Layout

variable {l : Layout} {m m' : Machine}

def enclosing (l : Layout) (id : FrameId) : Option FrameId := l.frames[id]?.bind fun label => label.outer.head?

def classOf (l : Layout) (id : Nat) : Option Class := l.classes[id]?.bind fun isClass => isClass.map Prod.fst

theorem Chain.follow_eq {chain : Frames} (isChain : l.Chain chain) :
    ∃ first rest, chain = first :: rest ∧ chain.getLast? = some 0 ∧
      ∀ n, first < n → follow l.enclosing n first = some chain := by
  induction isChain with
  | globals made =>
    have last : l.enclosing 0 = none := by simp [enclosing, made]
    exact ⟨0, [], rfl, rfl, fun n lt => follow_last last lt⟩
  | @frame id outer π made older _ ih =>
    obtain ⟨first, rest, rfl, last, follows⟩ := ih
    have step : l.enclosing id = some first := by simp [enclosing, made]
    refine ⟨id, first :: rest, rfl, by rwa [List.getLast?_cons_cons], fun n lt => ?_⟩
    exact follow_step step (older first List.mem_cons_self) lt follows

theorem Machines.reachesGlobals (pair : l.Machines m m') {chain : Frames} (isChain : l.Chain chain) :
    m.ReachesGlobals l.enclosing chain := by
  obtain ⟨first, rest, rfl, last, follows⟩ := isChain.follow_eq
  have lt : first < m.frames.size := pair.size_left ▸ isChain.lt_length first List.mem_cons_self
  exact ⟨first, follows _ lt, last, fun name => searchAlong_of_follow _ (follows _ lt)⟩

theorem Classes.classOf_eq {c' : Class} (alike : l.Classes c c') : l.classOf c.id = some c := by
  rw [Classes] at alike
  simp [classOf, alike]

theorem Classes.extended_eq {c' : Class} (alike : l.Classes c c') :
    Machine.extended l.classOf c.id = c.superclass.map Class.id := by
  rw [Machine.extended, alike.classOf_eq, Option.bind_some]

/-- By induction on the classes that are extended, which are older. -/
theorem Machines.follow_lineage (pair : l.Machines m m') :
    ∀ {c c' : Class}, l.Classes c c' → ∀ n, c.id < n → follow (Machine.extended l.classOf) n c.id = some c.lineage
  | ⟨id, _, none, _, _⟩, _, alike, n, lt => follow_last alike.extended_eq lt
  | ⟨id, _, some base, _, _⟩, ⟨_, _, _, _, _⟩, alike, n, lt => by
    have listed := alike.listed pair
    have bases := listed.superclass
    cases bases with
    | some related =>
      exact follow_step alike.extended_eq (listed.older base rfl) lt (pair.follow_lineage related)

/-- The first class of a lineage with a method of its own is the one whose method is found. -/
theorem Machines.findMethod?_eq (pair : l.Machines m m') (name : String) :
    ∀ {c c' : Class}, l.Classes c c' →
      c.findMethod? name = (c.lineage.find? fun id => (Machine.ownMethod? l.classOf name id).isSome).bind
        (Machine.ownMethod? l.classOf name)
  | ⟨id, _, none, _, methods⟩, _, alike => by
    have own : Machine.ownMethod? l.classOf name id = methods.get? name := by
      rw [Machine.ownMethod?, alike.classOf_eq, Option.bind_some]
    simp only [Class.findMethod?, Class.lineage, List.find?_singleton, own]
    cases found : methods.get? name with
    | none => rfl
    | some => simp [own, found]
  | ⟨id, _, some base, _, methods⟩, ⟨_, _, _, _, _⟩, alike => by
    have own : Machine.ownMethod? l.classOf name id = methods.get? name := by
      rw [Machine.ownMethod?, alike.classOf_eq, Option.bind_some]
    have bases := (alike.listed pair).superclass
    cases bases with
    | some related =>
      have inherited := pair.findMethod?_eq name related
      simp only [Class.findMethod?, Class.lineage, List.find?_cons, own]
      cases found : methods.get? name with
      | none => simpa using inherited
      | some => simp [own, found]

theorem Machines.endsLineage (pair : l.Machines m m') {c' : Class} (alike : l.Classes c c') :
    m.EndsLineage l.classOf c := by
  have lt : c.id < m.fields.size := pair.objects_left ▸ (List.getElem?_eq_some_iff.mp alike).1
  have follows := pair.follow_lineage alike _ lt
  exact ⟨alike.classOf_eq, follows, fun name =>
    ⟨_, searchAlong_of_follow _ follows, pair.findMethod?_eq name alike⟩⟩

theorem exists_of_rel_some {α β : Type} {R : α → β → Prop} {a : α} {b : Option β} (related : Option.Rel R (some a) b) :
    ∃ a', R a a' := by
  cases related with
  | some related => exact ⟨_, related⟩

theorem exists_of_mem {α β : Type} {R : α → β → Prop} {xs : List α} {ys : List β} (all : List.Forall₂ R xs ys) {x : α}
    (member : x ∈ xs) : ∃ y, R x y := by
  induction all with
  | nil => cases member
  | cons first _ ih =>
    rcases List.mem_cons.mp member with rfl | member
    · exact ⟨_, first⟩
    · exact ih member

theorem Machines.behind (pair : l.Machines m m') {d : Class} (behind : c.Behind d) :
    ∀ {c' : Class}, l.Classes c c' → ∃ d', l.Classes d d' := by
  induction behind with
  | self => exact fun alike => ⟨_, alike⟩
  | superclass isBase _ ih =>
    intro c' alike
    obtain ⟨base', related⟩ := exists_of_rel_some (isBase ▸ (alike.listed pair).superclass)
    exact ih related
  | metaclass holds _ ih =>
    intro c' alike
    obtain ⟨own', related⟩ := exists_of_rel_some (holds ▸ (alike.listed pair).metaclass)
    exact ih related

theorem Values.hasClass (pair : l.Machines m m') {value' : Value} (alike : l.Values value value')
    (has : value.HasClass c) : ∃ c', l.Classes c c' := by
  cases has with
  | classObject behind =>
    cases alike with
    | classObject alike => exact pair.behind behind alike
  | object behind =>
    cases alike with
    | object _ alike =>
      obtain ⟨made', related⟩ := exists_of_rel_some alike
      exact pair.behind behind related

theorem Values.chain (pair : l.Machines m m') {value' : Value} (alike : l.Values value value') {f : Closure}
    (has : value.HasClosure f) : l.Chain f.frames := by
  cases has with
  | function =>
    cases alike with
    | function alike => exact alike.chain
  | method has isMethod =>
    obtain ⟨c', related⟩ := alike.hasClass pair has
    obtain ⟨entry', -, methods⟩ := exists_of_mem (related.listed pair).methods isMethod
    generalize entry'.2 = method' at methods
    cases methods with
    | closure alike => exact alike.chain
  | traitMethod isMethod =>
    cases alike with
    | trait alike =>
      obtain ⟨entry', -, closures⟩ := exists_of_mem alike.methods isMethod
      exact closures.chain

theorem Machines.keeps (pair : l.Machines m m') (keeps : m.Keeps value) : ∃ value', l.Values value value' := by
  cases keeps with
  | @binding id name _ bound =>
    obtain ⟨entry', -, alike⟩ := exists_of_mem (pair.frames id) bound
    exact ⟨_, alike⟩
  | @field id name _ bound =>
    obtain ⟨entry', -, alike⟩ := exists_of_mem (pair.fields id) bound
    exact ⟨_, alike⟩
  | @element id _ isElement => exact exists_of_mem (pair.elements id) isElement

theorem Machines.founded (pair : l.Machines m m') {atHand : List Value}
    (alike : ∀ value ∈ atHand, ∃ value', l.Values value value') : m.Founded atHand l.enclosing l.classOf := by
  have values : ∀ value, m.Keeps value ∨ value ∈ atHand → ∃ value', l.Values value value' := by
    intro value known
    rcases known with keeps | member
    · exact pair.keeps keeps
    · exact alike value member
  refine ⟨pair.reachesGlobals pair.inSight, ?_, ?_⟩
  · intro value f known has
    obtain ⟨value', related⟩ := values value known
    exact pair.reachesGlobals (related.chain pair has)
  · intro value c known has
    obtain ⟨value', related⟩ := values value known
    obtain ⟨c', classes⟩ := related.hasClass pair has
    exact pair.endsLineage classes

end Layout

/-! ### Every point of a run -/

/-- The machine has a layout. -/
def Machine.LaidOut (m : Machine) : Prop := ∃ (l : Layout) (m' : Machine), l.Machines m m'

namespace Layout

variable {l : Layout} {m : Machine}

/-- The parts, except that an alarm goes off at a machine without a layout. -/
noncomputable def alarmed (n : Nat) (alarm : Fault) : Parts :=
  open Classical in (Parts.ofFuel n).crashing fun _ m => if m.LaidOut then none else some alarm

theorem partsFollow_alarmed (n : Nat) (alarm : Fault) : PartsFollow (alarmed n alarm) (.ofFuel n) := by
  have parts := partsFollow_ofFuel n
  refine ⟨parts.fuel, ?_, ?_⟩
  · intro w m m' ρ pair around e
    have laidOut : m.LaidOut := ⟨_, m', pair.1⟩
    simpa only [Sight.Follows, Simulation.Follows, alarmed, Parts.crashing, if_pos laidOut] using parts.eval pair around e
  · intro w m m' ρ pair around s s' renamed
    have laidOut : m.LaidOut := ⟨_, m', pair.1⟩
    simpa only [Sight.Follows, Simulation.Follows, alarmed, Parts.crashing, if_pos laidOut] using parts.exec pair around renamed

theorem follows_layer {p q : Parts} (parts : PartsFollow p q) {w : Sight} {m' : Machine}
    (pair : simulation.Machines w m m') (trivial : ∀ π ∈ w.namings, π = 1) (point : Point) :
    ∃ R : Sight → point.Outcome → point.Outcome → Prop, w.Follows m m' (point.layer p) (point.layer q) R := by
  cases point with
  | eval e =>
    have follows := follows_evalStep parts pair rfl e
    rw [Expr.rename_of_trivial trivial] at follows
    exact ⟨_, follows⟩
  | exec s =>
    exact ⟨_, follows_execStep parts pair rfl (Stmt.renamed_refl Renaming.proper_one trivial s)⟩

/-- Where an alarm goes off, the layer itself would have to end with it. -/
theorem crashed_of_alarmed (pair : l.Machines m m) (trivial : ∀ π ∈ l.namings m.scope, π = 1) (point : Point)
    {alarm : Fault} (plain : ∀ name, alarm ≠ .declaration (.notTrait name)) {m₁ : Machine}
    (goesOff : point.layer (alarmed n alarm) m = .error (.crashed alarm) m₁) :
    ∃ m₂, point.layer (.ofFuel n) m = .error (.crashed alarm) m₂ := by
  obtain ⟨R, follows⟩ := follows_layer (partsFollow_alarmed n alarm) pair.seen trivial point
  rw [Sight.Follows, Simulation.Follows, goesOff] at follows
  generalize point.layer (.ofFuel n) m = outcome at follows
  cases follows with
  | error _ _ _ alike =>
    cases alike with
    | crashed => exact ⟨_, rfl⟩
    | notTrait name => exact absurd rfl (plain name)

theorem alarm_of_entered {v : Visit} {point : Point} {machine : Machine} (enters : v.Enters ⟨n, point, machine⟩)
    (bad : ¬ machine.LaidOut) (alarm : Fault) :
    ∃ m₁, v.point.layer (alarmed n alarm) v.machine = .error (.crashed alarm) m₁ := by
  classical
  obtain ⟨nodes, runs, entered⟩ := v.exists_runs enters.1
  have member := (entered point machine).mpr enters
  refine runs.loud _ alarm ?_
  cases found : nodes.findSome? fun node => if node.2.LaidOut then none else some alarm with
  | none =>
    have silent := List.findSome?_eq_none_iff.mp found _ member
    rw [if_neg bad] at silent
    cases silent
  | some =>
    obtain ⟨node, -, same⟩ := List.exists_of_findSome?_eq_some found
    split at same
    · cases same
    · exact same.symm

theorem laidOut_of_enters {v : Visit} (laidOut : v.machine.LaidOut) {w : Visit} (enters : v.Enters w) :
    w.machine.LaidOut := by
  obtain ⟨l, m', pair⟩ := laidOut
  by_contra bad
  -- Whichever alarm is set, the layer would end with it.
  have ends (alarm : Fault) (plain : ∀ name, alarm ≠ .declaration (.notTrait name)) :
      ∃ m₂, v.point.layer (.ofFuel w.fuel) v.machine = .error (.crashed alarm) m₂ := by
    obtain ⟨m₁, goesOff⟩ := alarm_of_entered enters bad alarm
    exact crashed_of_alarmed pair.left (l.trivial_left _) v.point plain goesOff
  obtain ⟨m₁, one⟩ := ends .scopeTooDeep (by simp)
  obtain ⟨m₂, two⟩ := ends .missingStatement (by simp)
  cases one.symm.trans two

theorem follows_program (program : List Stmt) (fuel : Nat) (clock dice : Readings) :
    Results ⟨start, globalFrames⟩ Simulation.Same (Eval.runAll (Eval.execute fuel) program (.start clock dice))
      (Eval.runAll (Eval.execute fuel) program (.start clock dice)) := by
  have trivial : ∀ π ∈ start.namings (Machine.start clock dice).scope, π = 1 := by
    simp [Machine.start, start, namings, naming, globalFrames, Machine.blank]
  exact follows_runAll (partsFollow_ofFuel fuel) (machines_start clock dice).seen rfl
    (Stmt.allRenamed_refl Renaming.proper_one trivial program)

theorem laidOut_of_reached {program : List Stmt} {fuel : Nat} {clock dice : Readings} {v : Visit}
    (reached : Reached program fuel (.start clock dice) v) : v.machine.LaidOut := by
  induction reached with
  | @statement before rest s m split ran =>
    have follows := follows_program before fuel clock dice
    rw [ran] at follows
    cases follows with
    | ok _ pair => exact ⟨_, _, pair⟩
  | inner _ enters ih => exact laidOut_of_enters ih enters

end Layout

/-- What a node leaves: its machine, and the value that it hands over, also by a return. -/
def Point.leaves : (point : Point) → EStateM.Result Ending Machine point.Outcome → Machine × List Value
  | .eval _, .ok value m => (m, [value])
  | .exec _, .ok _ m => (m, [])
  | _, .error (.returned value) m => (m, [value])
  | _, .error _ m => (m, [])

/-- The heap of a machine is in order, for some frames around its frames and some table of its classes. -/
def Machine.InOrder (m : Machine) (atHand : List Value) : Prop :=
  ∃ enclosing classes, m.Founded atHand enclosing classes

namespace Layout

variable {l l' : Layout} {m m' : Machine}

theorem Machines.inOrder (pair : l.Machines m m') : m.InOrder [] :=
  ⟨_, _, pair.founded (by simp)⟩

theorem Endings.inOrder (pair : l.Machines m m') {ending ending' : Ending} (alike : l.Endings ending ending')
    (point : Point) : (point.leaves (.error ending m)).1.InOrder (point.leaves (.error ending m)).2 := by
  cases alike with
  | returned alike => cases point <;> exact ⟨_, _, pair.founded (by simpa [Point.leaves] using ⟨_, alike⟩)⟩
  | _ => cases point <;> exact pair.inOrder

section
variable {w : Sight}

theorem Results.inOrder_eval {e : Expr} {r r' : EStateM.Result Ending Machine Value}
    (results : Results w simulation.Values r r') : ((Point.eval e).leaves r).1.InOrder ((Point.eval e).leaves r).2 := by
  cases results with
  | ok _ after _ related => exact ⟨_, _, after.founded (by simpa [Point.leaves] using ⟨_, related⟩)⟩
  | error _ after _ alike => exact alike.inOrder after (.eval e)

theorem Results.inOrder_exec {s : Stmt} {r r' : EStateM.Result Ending Machine Unit}
    (results : Results w Simulation.Same r r') : ((Point.exec s).leaves r).1.InOrder ((Point.exec s).leaves r).2 := by
  cases results with
  | ok _ after => exact after.inOrder
  | error _ after _ alike => exact alike.inOrder after (.exec s)

end

theorem inOrder_leaves (laidOut : m.LaidOut) (point : Point) (fuel : Nat) :
    (point.leaves (point.run fuel m)).1.InOrder (point.leaves (point.run fuel m)).2 := by
  obtain ⟨l, m', pair⟩ := laidOut
  have parts := partsFollow_ofFuel fuel
  cases point with
  | eval e => exact Results.inOrder_eval (parts.eval pair.left.seen rfl e)
  | exec s =>
    have renamed := Stmt.renamed_refl Renaming.proper_one (l.trivial_left m.scope) s
    exact Results.inOrder_exec (parts.exec pair.left.seen rfl renamed)

theorem Machines.printAll (pair : l.Machines m m') (lines : List String) :
    l.Machines (m.printAll lines) (m'.printAll lines) :=
  { pair with printed := by simp [Machine.printAll, pair.printed] }

theorem laidOut_interpret (program : List Stmt) (fuel : Nat) (clock dice : Readings) :
    ((Machine.start clock dice).interpret fuel program).1.LaidOut := by
  have follows := follows_program program fuel clock dice
  simp only [Machine.interpret, Machine.perform, EStateM.run]
  generalize Eval.runAll (Eval.execute fuel) program (.start clock dice) = outcome at follows ⊢
  cases outcome with
  | ok =>
    cases follows with
    | ok _ pair => exact ⟨_, _, pair⟩
  | error ending =>
    cases follows with
    | error _ pair =>
      cases ending with
      | failed error => exact ⟨_, _, pair.printAll [error.message]⟩
      | _ => exact ⟨_, _, pair⟩

end Layout

/-- The heap stays in order: whatever is run, and whatever depths stand in it, this holds wherever a node begins, where
it ends, be it with an error, and where the run ends. -/
theorem heap_stays_founded (program : List Stmt) (fuel : Nat) (clock dice : Readings) :
    (∀ v, Reached program fuel (.start clock dice) v → v.machine.InOrder [] ∧
      (v.point.leaves (v.point.run v.fuel v.machine)).1.InOrder (v.point.leaves (v.point.run v.fuel v.machine)).2) ∧
      ((Machine.start clock dice).interpret fuel program).1.InOrder [] := by
  refine ⟨fun v reached => ?_, ?_⟩
  · have laidOut := Layout.laidOut_of_reached reached
    obtain ⟨l, m', machines⟩ := laidOut
    exact ⟨machines.inOrder, Layout.inOrder_leaves ⟨l, m', machines⟩ v.point v.fuel⟩
  · obtain ⟨l, m', machines⟩ := Layout.laidOut_interpret program fuel clock dice
    exact machines.inOrder

def heldClass : Stmt :=
  .classDef ⟨.named "A", none, [⟨.named "m", some [], []⟩], [], []⟩

def heirClass : Stmt :=
  .classDef ⟨.named "B", some ⟨.named "A", none⟩, [], [], []⟩

def heirDeclared : Visit := ⟨1, .exec heirClass, (Eval.execute 1 heldClass).after (.start {} {})⟩

/-- The first class is kept when the second one is declared. -/
theorem heap_stays_founded_heir :
    Reached [heldClass, heirClass] 1 (.start {} {}) heirDeclared ∧
      (∃ c, heirDeclared.machine.Keeps (.classObject c) ∧ c.metaclass.isSome) ∧ heirDeclared.machine.InOrder [] ∧
      (heirDeclared.point.leaves (heirDeclared.point.run 1 heirDeclared.machine)).1.InOrder [] := by
  have reached : Reached [heldClass, heirClass] 1 (.start {} {}) heirDeclared :=
    .statement (show [heldClass, heirClass] = [heldClass] ++ heirClass :: [] from rfl) rfl
  obtain ⟨c, bound, isSome⟩ : ∃ c,
      (heirDeclared.machine.frame 0).entries.getLast? = some ("A", .classObject c) ∧ c.metaclass.isSome :=
    ⟨_, rfl, rfl⟩
  obtain ⟨before, after⟩ := (heap_stays_founded [heldClass, heirClass] 1 {} {}).1 heirDeclared reached
  exact ⟨reached, ⟨c, .binding (List.mem_of_getLast? bound), isSome⟩, before, after⟩

end LoxLang
