import LoxLang.Proofs.HeldValues

/-!
What a run holds. One layer of evaluation keeps a law on values if its parts do, class and trait declarations apart. If
the declarations that are run keep it as well, then the machine of every node that is run obeys it. This is by induction
on the number of layers for what a node leaves, and by induction on what is reached for what it finds.
-/

namespace LoxLang

open Eval Simulation

namespace Visit

variable {v : Visit} {n : Nat} {Good : Point → Machine → Prop} {alarm other : Fault}

/-- An alarm is what a layer ends with as soon as it runs a node that is not good. -/
theorem layer_alarmed (fuel : v.fuel = n + 1) {point : Point} {machine : Machine}
    (enters : v.Enters ⟨n, point, machine⟩) (bad : ¬ Good point machine) :
    ∃ m, v.point.layer ((Parts.ofFuel n).crashing (v.guard n Good alarm other)) v.machine =
      .error (.crashed alarm) m := by
  obtain ⟨nodes, runs, entered⟩ := v.exists_runs fuel
  have member := (entered point machine).mpr enters
  cases found : nodes.findSome? (fun node => v.guard n Good alarm other node.1 node.2) with
  | none =>
    have silent := List.findSome?_eq_none_iff.mp found (point, machine) member
    rw [guard, if_pos enters, if_neg bad] at silent
    cases silent
  | some =>
    obtain ⟨node, isNode, same⟩ := List.exists_of_findSome?_eq_some found
    rw [guard, if_pos ((entered node.1 node.2).mp isNode)] at same
    split at same
    · cases same
    · cases same
      exact runs.loud _ alarm found

/-- If it makes no difference which alarm is set, then none goes off. -/
theorem good_of_alike (fuel : v.fuel = n + 1) {alarm' : Fault} (apart : alarm ≠ alarm')
    (alike : v.point.layer ((Parts.ofFuel n).crashing (v.guard n Good alarm other)) v.machine =
      v.point.layer ((Parts.ofFuel n).crashing (v.guard n Good alarm' other)) v.machine) {point : Point}
    {machine : Machine} (enters : v.Enters ⟨n, point, machine⟩) : Good point machine := by
  by_contra bad
  obtain ⟨m, one⟩ := layer_alarmed fuel enters bad
  obtain ⟨m', two⟩ := layer_alarmed fuel enters bad
  rw [one, two] at alike
  cases alike
  exact apart rfl

theorem layer_of_good (fuel : v.fuel = n + 1) (alarm other : Fault)
    (good : ∀ point machine, v.Enters ⟨n, point, machine⟩ → Good point machine) :
    v.point.layer ((Parts.ofFuel n).crashing (v.guard n Good alarm other)) v.machine =
      v.point.layer (.ofFuel n) v.machine := by
  obtain ⟨nodes, runs, entered⟩ := v.exists_runs fuel
  refine runs.quiet _ (List.findSome?_eq_none_iff.mpr ?_)
  intro node member
  have enters := (entered node.1 node.2).mp member
  rw [guard, if_pos enters, if_pos (good node.1 node.2 enters)]

end Visit

namespace Law

variable {law : Law} {m : Machine}

/-! ### One layer of evaluation -/

variable (law) in
structure PartsTrack (p q : Parts) : Prop where
  fuel : p.fuel = q.fuel
  eval : ∀ e m, law.Holds m → law.Tracks m (p.eval e) (q.eval e) law.Allows
  exec : ∀ s m, law.Holds m → law.Tracks m (p.exec s) (q.exec s) fun _ => True

theorem catchesBreak : law.upkeep.simulation.CatchesBreak := by
  refine Upkeep.catchesBreak ?_
  intro _ m m' _ way
  exact ⟨(), trivial, way.2⟩

section
variable {p q : Parts} (parts : law.PartsTrack p q) (holds : law.Holds m)
include parts holds

theorem tracks_evalOption (e : Option Expr) :
    law.Tracks m (evalOption p.eval e) (evalOption q.eval e) law.Allows := by
  cases e with
  | none => exact sound_pure holds trivial
  | some e => exact parts.eval e m holds

theorem tracks_runAll (body : List Stmt) :
    law.Tracks m (runAll p.exec body) (runAll q.exec body) fun _ => True := by
  induction body generalizing m with
  | nil => exact sound_pure holds trivial
  | cons s _ ih => exact (parts.exec s m holds).bind fun _ _ _ _ holds => ih holds

theorem tracks_callClosure (f : Closure) {args : List Value} (given : ∀ value ∈ args, law.Allows value) :
    law.Tracks m (callClosure p.exec f args) (callClosure q.exec f args) law.Allows := by
  have bound : (Bindings.empty.putAll (((f.decl.params.getD []).map Token.lexeme).zip args)).All law.Allows := by
    refine Bindings.all_empty.putAll ?_
    intro entry member
    exact given entry.2 (List.of_mem_zip member).2
  refine (sound_newFrame holds bound).bind ?_
  intro id m₁ _ _ holds
  refine Tracks.catchReturn (Tracks.within (tracks_runAll parts (holds.scoped _) _)) ?_
  intro m₂ holds
  exact .ite (sound_getAt holds _ _ _) (sound_pure holds trivial)

omit holds in
theorem PartsTrack.evals (e : Expr) : law.upkeep.simulation.Evals p q () e e := by
  rintro _ _ m _ ⟨rfl, holds⟩
  exact (parts.eval e m holds).follows fun _ allowed => ⟨rfl, allowed⟩

omit holds in
theorem PartsTrack.execs (s : Stmt) : law.upkeep.simulation.Execs p q () s s := by
  rintro _ _ m _ ⟨rfl, holds⟩
  exact (parts.exec s m holds).follows fun _ _ => rfl

omit holds in
theorem PartsTrack.calls : law.upkeep.simulation.Calls () p.exec q.exec := by
  rintro _ m _ f _ args args' _ ⟨rfl, holds⟩ ⟨rfl, -⟩ given _
  obtain ⟨rfl, allowed⟩ := Upkeep.allows_left given
  exact (tracks_callClosure parts holds _ allowed).follows fun _ allowed => ⟨rfl, allowed⟩

theorem tracks_evalStep (e : Expr) : law.Tracks m (evalStep p e) (evalStep q e) law.Allows := by
  have pair : law.upkeep.simulation.Machines () m m := ⟨rfl, holds⟩
  have evals := parts.evals
  have calls := parts.calls
  refine tracks_of_follows (P := law.upkeep.simulation.Values) ?_ fun _ _ alike => alike
  cases e with
  | binary left _ right => exact follows_binary _ pair (evals left) rfl (evals right)
  | logical left _ right => exact follows_logical _ pair (evals left) rfl (evals right)
  | unary _ operand => exact follows_unary _ pair rfl (evals operand)
  | conditional test yes no =>
    exact follows_conditional _ pair (evals test) (evals yes) (evals no)
  | grouping inner => exact (evals inner).here pair
  | literal value => exact follows_pure pair ⟨rfl, allows_of_isPlain (by cases value <;> rfl)⟩
  | var name depth | this name depth => exact (sound_readName holds name depth).follows fun _ allowed => ⟨rfl, allowed⟩
  | assign name value depth =>
    refine follows_assign _ pair (evals value) ?_
    rintro _ m₁ _ a _ _ ⟨rfl, holds⟩ ⟨rfl, allowed⟩
    exact (sound_assignName holds name depth allowed).follows fun _ _ => rfl
  | call callee _ args =>
    have all : List.Forall₂ (law.upkeep.simulation.Evals p q ()) args args :=
      List.forall₂_same.mpr fun e _ => evals e
    exact follows_call _ pair calls (evals callee) rfl all
  | get object => exact follows_getStep _ pair calls (evals object) rfl
  | set object _ value => exact follows_setStep _ pair (evals object) rfl (evals value)
  | super _ _ depth =>
    cases depth with
    | none => exact (sound_crash holds _ : law.Sound m _ law.Allows).follows fun _ allowed => ⟨rfl, allowed⟩
    | some d =>
      refine follows_readSuper pair rfl ?_ ?_
      · exact (sound_getAt holds m.scope d superName).follows fun _ allowed => ⟨rfl, allowed⟩
      · rintro _ m₁ _ _ ⟨rfl, holds⟩
        exact (sound_getAt holds m.scope (d - 1) thisName).follows fun _ allowed => ⟨rfl, allowed⟩
  | missing => exact follows_pure pair ⟨rfl, trivial⟩

/-- Declarations of classes and traits have to keep the law by themselves. -/
theorem tracks_execStep (s : Stmt)
    (classes : ∀ decl, s = .classDef decl → law.Sound m (declareClass decl) fun _ => True)
    (traits : ∀ decl, s = .traitDef decl → law.Sound m (declareTrait decl) fun _ => True) :
    law.Tracks m (execStep p s) (execStep q s) fun _ => True := by
  have pair : law.upkeep.simulation.Machines () m m := ⟨rfl, holds⟩
  have unit (a a' : Unit) (_ : a = a') : a' = a ∧ True := ⟨rfl, trivial⟩
  cases s with
  | expression value =>
    exact tracks_of_follows (follows_expression _ pair (parts.evals value)) unit
  | print value => exact tracks_of_follows (follows_print _ pair (parts.evals value)) unit
  | var name init =>
    refine (tracks_evalOption parts holds init).bind ?_
    intro a m₁ _ allowed holds
    exact sound_define holds name.lexeme allowed
  | block body =>
    refine (sound_newFrame holds Bindings.all_empty).bind ?_
    intro id m₁ _ _ holds
    exact tracks_scope (.within (tracks_runAll parts (holds.scoped _) body))
  | ifElse test yes no =>
    have other : Option.Rel (law.upkeep.simulation.Execs p q ()) no no := by
      cases no with
      | none => exact .none
      | some s => exact .some (parts.execs s)
    exact tracks_of_follows (follows_ifElse _ pair (parts.evals test) (parts.execs yes) other) unit
  | whileLoop test body =>
    exact tracks_of_follows (follows_whileLoop _ pair catchesBreak parts.fuel.symm (parts.evals test)
      (parts.execs body)) unit
  | breakLoop => exact sound_of_error rfl (by rintro _ ⟨⟩) holds
  | returnValue _ value =>
    refine (tracks_evalOption parts holds value).bind ?_
    intro a m₁ _ allowed holds
    refine sound_of_error rfl ?_ holds
    rintro _ ⟨⟩
    exact allowed
  | function decl =>
    refine (sound_makeClosure holds decl false).bind ?_
    intro f m₁ _ _ holds
    exact sound_define holds decl.name.lexeme trivial
  | classDef decl => exact classes decl rfl
  | traitDef decl => exact traits decl rfl
  | missing => exact sound_crash holds _

end

/-! ### Runs -/

variable (law) in
/-- What is known of the outcome of a node. -/
def Yields : (point : Point) → point.Outcome → Prop
  | .eval _ => law.Allows
  | .exec _ => fun _ => True

variable (law) in
/-- The declarations that a run gets to keep the law. -/
structure Declares (program : List Stmt) (fuel : Nat) (start : Machine) : Prop where
  classes : ∀ n m decl, Reached program fuel start ⟨n + 1, .exec (.classDef decl), m⟩ → law.Holds m →
    law.Sound m (declareClass decl) fun _ => True
  traits : ∀ n m decl, Reached program fuel start ⟨n + 1, .exec (.traitDef decl), m⟩ → law.Holds m →
    law.Sound m (declareTrait decl) fun _ => True

section
variable {program : List Stmt} {fuel : Nat} {start : Machine} (declares : law.Declares program fuel start)

variable (law program fuel start) in
/-- Every node that is run with a number of layers keeps the law. -/
def KeptWithin (n : Nat) : Prop :=
  ∀ point m, Reached program fuel start ⟨n, point, m⟩ → law.Holds m → law.Kept (law.Yields point) (point.run n m)

/-- Parts that raise an alarm at a node that is run from a machine that breaks the law: they end alike, whichever alarm
it is, since they are given machines that obey the law. -/
theorem partsTrack_guarded {v : Visit} {n : Nat} (reached : Reached program fuel start v)
    (within : law.KeptWithin program fuel start n) (alarm alarm' other : Fault) :
    law.PartsTrack ((Parts.ofFuel n).crashing (v.guard n (fun _ m => law.Holds m) alarm other))
      ((Parts.ofFuel n).crashing (v.guard n (fun _ m => law.Holds m) alarm' other)) := by
  refine ⟨rfl, ?_, ?_⟩
  · intro e m holds
    by_cases enters : v.Enters ⟨n, .eval e, m⟩
    · refine ⟨?_, ?_⟩ <;> simp only [Parts.crashing, Visit.guard, if_pos enters, if_pos holds]
      exact within (.eval e) m (.inner reached enters) holds
    · refine ⟨?_, ?_⟩ <;> simp only [Parts.crashing, Visit.guard, if_neg enters]
      exact ⟨allowsEnding_of_isError rfl, holds⟩
  · intro s m holds
    by_cases enters : v.Enters ⟨n, .exec s, m⟩
    · refine ⟨?_, ?_⟩ <;> simp only [Parts.crashing, Visit.guard, if_pos enters, if_pos holds]
      exact within (.exec s) m (.inner reached enters) holds
    · refine ⟨?_, ?_⟩ <;> simp only [Parts.crashing, Visit.guard, if_neg enters]
      exact ⟨allowsEnding_of_isError rfl, holds⟩

include declares

/-- A node that is run from a machine that obeys the law runs others from such machines only, and keeps the law. -/
theorem kept_layer {n : Nat} {point : Point} (reached : Reached program fuel start ⟨n + 1, point, m⟩)
    (holds : law.Holds m) (within : law.KeptWithin program fuel start n) :
    (∀ point' m', Visit.Enters ⟨n + 1, point, m⟩ ⟨n, point', m'⟩ → law.Holds m') ∧
      law.Kept (law.Yields point) (point.run (n + 1) m) := by
  let v : Visit := ⟨n + 1, point, m⟩
  have parts := partsTrack_guarded reached within .unresolvedSuper .scopeTooDeep .missingStatement
  have tracks : law.Tracks m
      (point.layer ((Parts.ofFuel n).crashing (v.guard n (fun _ m => law.Holds m) .unresolvedSuper .missingStatement)))
      (point.layer ((Parts.ofFuel n).crashing (v.guard n (fun _ m => law.Holds m) .scopeTooDeep .missingStatement)))
      (law.Yields point) := by
    cases point with
    | eval e => exact tracks_evalStep parts holds e
    | exec s =>
      refine tracks_execStep parts holds s ?_ ?_
      · rintro decl rfl
        exact declares.classes n m decl reached holds
      · rintro decl rfl
        exact declares.traits n m decl reached holds
  have good : ∀ point' m', v.Enters ⟨n, point', m'⟩ → law.Holds m' := by
    intro point' m' enters
    exact Visit.good_of_alike rfl (by simp) tracks.same enters
  refine ⟨good, ?_⟩
  have same := Visit.layer_of_good (v := v) rfl .unresolvedSuper .missingStatement good
  rw [Point.run_succ, ← same]
  exact tracks.kept

theorem keptWithin (n : Nat) : law.KeptWithin program fuel start n := by
  induction n with
  | zero =>
    intro point m _ holds
    cases point <;> exact ⟨by rintro _ ⟨⟩, holds⟩
  | succ _ ih => exact fun point m reached holds => (kept_layer declares reached holds ih).2

/-- Statements of a program keep the law after those before them, by induction on the statements. -/
theorem kept_statements (done : List Stmt) {todo rest : List Stmt} (split : program = done ++ todo ++ rest)
    (ran : runAll (execute fuel) done start = .ok () m) (holds : law.Holds m) :
    law.Kept (fun _ => True) (runAll (execute fuel) todo m) := by
  induction todo generalizing done m with
  | nil => exact ⟨trivial, holds⟩
  | cons s more ih =>
    have after : program = done ++ s :: (more ++ rest) := by simp [split]
    have kept := keptWithin declares fuel (.exec s) m (.statement after ran) holds
    rw [runAll]
    cases ends : execute fuel s m with
    | error =>
      rw [bind_of_error ends]
      rw [Point.run, ends] at kept
      exact kept
    | ok _ m' =>
      rw [bind_of_ok ends]
      rw [Point.run, ends] at kept
      have one : runAll (execute fuel) (done ++ [s]) start = .ok () m' := by
        rw [runAll_append, bind_of_ok ran, runAll, bind_of_ok ends]
        rfl
      exact ih (done ++ [s]) (by simp [split]) one kept.2

/-- The machine of every node that is run obeys the law, if the machine of the start does. -/
theorem holds_reached (first : law.Holds start) {v : Visit} (reached : Reached program fuel start v) :
    law.Holds v.machine := by
  induction reached with
  | statement split ran =>
    rename_i before rest s m
    have kept := kept_statements declares [] split rfl first
    rw [ran] at kept
    exact kept.2
  | inner reached enters ih =>
    rename_i v w
    obtain ⟨n, point, m⟩ := v
    obtain ⟨n', point', m'⟩ := w
    obtain rfl : n = n' + 1 := enters.1
    exact (kept_layer declares reached ih (keptWithin declares n')).1 point' m' enters

end

end Law

end LoxLang
