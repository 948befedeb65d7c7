import LoxLang.Proofs.MethodLookup
import LoxLang.Proofs.RaisedFaults
import LoxLang.Proofs.ReturnsCaught

/-!
What comes out of running a program. An error of the program ends it and is reported. A break that no loop catches and a
fault that a node raises by itself are not reported, and come out. Nothing else does, since every return is caught.
-/

namespace LoxLang

/-! ### The values of a run -/

/-- What a class finds for itself under a name is a function, if it was declared. -/
theorem Class.Declared.isOwnFunction {ran : Visit → Prop} {c k : Class} (declared : c.Declared ran)
    (isMeta : c.metaclass = some k) {name : String} {method : Method} (found : k.findMethod? name = some method) :
    ∃ f, method = .closure f := by
  cases declared with
  | made _ made _ bases =>
    obtain ⟨_, isMetaclass, base, methods⟩ := made.metaclass
    cases isMeta.symm.trans isMetaclass
    rw [findMethod?_eq, methods, base] at found
    exact Method.exists_closure found fun b isBase => (bases b isBase).isFunction

/-- In a run, classes and traits come from declarations, every object has a class, and the power, which has no name, is
no value. -/
def runLaw (ran : Visit → Prop) : Law where
  ofClass := Class.Declared ran
  ofTrait := Trait.Declared ran
  ofInstance o := ∃ c, o.madeBy = some c ∧ c.Declared ran
  ofBuiltin b := b ≠ .pow
  makes c _ declared := ⟨c, rfl, declared⟩
  methods := by
    rintro o c name b ⟨_, made, declared⟩ isMade found
    cases made.symm.trans isMade
    obtain ⟨f, ⟨⟩⟩ := declared.isFunction found
  ownMethods := by
    intro c k name b declared isMeta found
    obtain ⟨f, ⟨⟩⟩ := declared.isOwnFunction isMeta found

theorem Law.Holds.allows_of_shows {law : Law} {m : Machine} (holds : law.Holds m) {value inner : Value}
    (shows_ : m.Shows value inner) (allowed : law.Allows value) : law.Allows inner := by
  induction shows_ with
  | itself => exact allowed
  | element member _ ih => exact ih (holds.arrays _ _ member)

section
variable {program : List Stmt} {fuel : Nat} {clock dice : Readings}

theorem declares_runLaw : (runLaw (Reached program fuel (.start clock dice))).Declares program fuel (.start clock dice) :=
  Law.OfDeclared.declares ⟨fun _ => .rfl, fun _ => .rfl⟩ fun _ reached => reached

theorem holds_runLaw {v : Visit} (reached : Reached program fuel (.start clock dice) v) :
    (runLaw (Reached program fuel (.start clock dice))).Holds v.machine := by
  refine Law.holds_reached declares_runLaw (Law.holds_start ?_ clock dice) reached
  intro entry member
  simp only [builtinNames, List.mem_cons, List.not_mem_nil, or_false] at member
  rcases member with rfl | rfl | rfl | rfl | rfl | rfl | rfl | rfl | rfl | rfl | rfl | rfl | rfl | rfl | rfl | rfl <;>
    simp [runLaw]

theorem allows_of_evaluate {n : Nat} {e : Expr} {m m' : Machine} {value : Value}
    (reached : Reached program fuel (.start clock dice) ⟨n, .eval e, m⟩)
    (ran : Eval.evaluate n e m = .ok value m') :
    (runLaw (Reached program fuel (.start clock dice))).Allows value ∧
      (runLaw (Reached program fuel (.start clock dice))).Holds m' := by
  have kept := Law.keptWithin declares_runLaw n (.eval e) m reached (holds_runLaw reached)
  rw [Point.run, ran] at kept
  exact kept

end

theorem Visit.enters_print {n : Nat} {e : Expr} {m : Machine} :
    Visit.Enters ⟨n + 1, .exec (.print e), m⟩ ⟨n, .eval e, m⟩ := by
  refine ⟨rfl, fun fault => ⟨m, Eval.bind_of_error ?_⟩⟩
  simp [Parts.crashing, Visit.crash]

/-- From the start, no node of an accepted program comes to a fault that takes a broken tree or machine. -/
theorem Accepted.not_derails {source : String} {program : List Stmt} (accepted : Accepted source program) {fuel : Nat}
    {clock dice : Readings} {w : Visit} (reached : Reached program fuel (.start clock dice) w) {fault : Fault} :
    ¬ w.Derails fault := by
  let r : Run := .ofAccepted accepted fuel clock dice
  have ofRun : r.Reaches w := reached
  intro derails
  have ends := derails.ends
  obtain ⟨k, point, m⟩ := w
  obtain ⟨n, rfl, derails⟩ := derails
  cases derails with
  | unresolved =>
    obtain ⟨m', crashed⟩ := reached.runAll_error rfl ends
    have excluded : r.excludes .unresolvedSuper = false := ((Run.sound_program (r := r)).of_error crashed).2.2
    rw [Run.excludes_super] at excluded
    cases excluded
  | superMethod _ found isBuiltin =>
    have declared := ((holds_runLaw reached).frames _).get? found
    obtain ⟨f, ⟨⟩⟩ := Class.Declared.isFunction declared isBuiltin
  | initializer called _ _ isBuiltin =>
    have declared := (allows_of_evaluate (reached.inner (Run.enters_first fun _ => rfl)) called).1
    obtain ⟨f, ⟨⟩⟩ := Class.Declared.isFunction declared isBuiltin
  | power called =>
    exact (allows_of_evaluate (reached.inner (Run.enters_first fun _ => rfl)) called).1 rfl
  | call called _ _ _ isInitializer noObject =>
    have function : r.FunctionOk _ _ := (Run.first_ok (fun _ => rfl) ofRun called).2
    obtain ⟨id, outer, frames, -⟩ := function.2 isInitializer
    cases noObject.symm.trans frames
  | getter evaluated read _ _ isInitializer noObject =>
    obtain ⟨ok, fine⟩ := Run.first_ok (fun _ => rfl) ofRun evaluated
    have function : r.FunctionOk _ _ := ((Run.quiet_readProperty ok fine _).of_ok read).2
    obtain ⟨id, outer, frames, -⟩ := function.2 isInitializer
    cases noObject.symm.trans frames
  | print evaluated noText =>
    obtain ⟨allowed, holds⟩ := allows_of_evaluate (reached.inner Visit.enters_print) evaluated
    rcases Machine.display_error noText with isFuel | ⟨o, shows_, noClass, -⟩
    · cases isFuel
    · obtain ⟨c, made, -⟩ := holds.allows_of_shows shows_ allowed
      cases noClass.symm.trans made
  | missing =>
    obtain ⟨-, σ, code, -⟩ := Run.good_of_reaches ofRun
    exact code.parsed

/-! ### What comes out -/

/-- What comes out of a program that is run without being reported. -/
inductive Escapes (program : List Stmt) (fuel : Nat) (start : Machine) : Ending → Prop
  /-- A break that is carried out where no loop catches it. -/
  | strayBreak {before rest : List Stmt} {s : Stmt} {m : Machine} {w : Visit} (split : program = before ++ s :: rest)
    (ran : Eval.runAll (Eval.execute fuel) before start = .ok () m) (exposes : Visit.Exposes ⟨fuel, .exec s, m⟩ w)
    (breaks : w.Breaks) : Escapes program fuel start .broke
  | fault {w : Visit} {fault : Fault} (reached : Reached program fuel start w)
    (raises : w.Raises fault ∨ w.Derails fault) : Escapes program fuel start (.crashed fault)

theorem Accepted.not_returned {source : String} {program : List Stmt} (accepted : Accepted source program) {fuel : Nat}
    {start m : Machine} {result : Value} : Eval.runAll (Eval.execute fuel) program start ≠ .error (.returned result) m := by
  intro failed
  obtain ⟨before, s, rest, m₁, split, -, ends⟩ := Eval.exists_of_runAll_error failed
  have returned : Visit.Ends ⟨fuel, .exec s, m₁⟩ (.returned result) := ⟨m, ends⟩
  obtain ⟨w, keyword, value, leads, isReturn, -⟩ := returned.leads_return
  exact accepted.noReturn s (by simp [split]) keyword value (leads.holds rfl isReturn)

/-- What comes out of an accepted program, run from any machine. Besides that it can run out of fuel, what comes out is a
break that no loop catches, or a fault that a node raises that is run, and each of these does come out. An error of the
program that is met at a node does not: it ends the program, and its message is printed last. From the start, no fault
takes a broken tree or machine. -/
theorem unreported_endings_iff_escapes {source : String} {program : List Stmt} (accepted : Accepted source program)
    (fuel : Nat) (start : Machine) :
    (∀ ending, (start.interpret fuel program).2 = some ending ↔
        Escapes program fuel start ending ∨
          ending = .outOfFuel ∧ ∃ m, Eval.runAll (Eval.execute fuel) program start = .error .outOfFuel m) ∧
      (∀ w error, Reached program fuel start w → w.Ends (.failed error) →
        ∃ m : Machine, start.interpret fuel program = (m.printAll [error.message], none)) ∧
      ∀ clock dice, start = .start clock dice → ∀ w fault, Reached program fuel start w → ¬ w.Derails fault := by
  refine ⟨?_, ?_, ?_⟩
  · intro ending
    rw [Machine.interpret_ending_iff]
    constructor
    · rintro ⟨unreported, m, ended⟩
      cases ending with
      | failed error => exact absurd rfl (unreported error)
      | returned => exact absurd ended accepted.not_returned
      | outOfFuel => exact .inr ⟨rfl, m, ended⟩
      | crashed fault =>
        obtain ⟨w, reached, raises⟩ := crashes_runAll_iff.mp ⟨m, ended⟩
        exact .inl (.fault reached raises)
      | broke =>
        obtain ⟨before, s, rest, m₁, split, ran, ends⟩ := Eval.exists_of_runAll_error ended
        have left : Visit.Ends ⟨fuel, .exec s, m₁⟩ .broke := ⟨m, ends⟩
        obtain ⟨w, exposes, breaks⟩ := Visit.ends_broke_iff.mp left
        exact .inl (.strayBreak split ran exposes breaks)
    · rintro (escapes | ⟨rfl, ended⟩)
      · cases escapes with
        | strayBreak split ran exposes breaks =>
          obtain ⟨m, ended⟩ := exposes.ends breaks.2
          refine ⟨by simp, m, ?_⟩
          rw [split]
          exact Eval.runAll_of_error _ ran ended
        | fault reached raises => exact ⟨by simp, crashes_runAll_iff.mpr ⟨_, reached, raises⟩⟩
      · exact ⟨by simp, ended⟩
  · intro w error reached ends
    obtain ⟨m, failed⟩ := reached.runAll_error rfl ends
    exact ⟨m, by simp only [Machine.interpret, Machine.perform, EStateM.run, failed]⟩
  · rintro clock dice rfl w fault reached
    exact accepted.not_derails reached

/-! A class that extends what is no class. -/

def extendingSource : String := "var x;class A<x\x7b\x7d"

def unsetVariable : Stmt := .var (.named "x") (some (.literal .nil))

def extendingClass : ClassDecl := ⟨.named "A", some ⟨.named "x", none⟩, [], [], []⟩

def extendingProgram : List Stmt := [unsetVariable, .classDef extendingClass]

theorem accepted_extending : Accepted extendingSource extendingProgram :=
  have keyword : (⟨.kwVar, "var", .nil, 1⟩ : Token).kind = .kwVar := rfl
  have name : (⟨.identifier, "x", .nil, 1⟩ : Token).kind = .identifier := rfl
  have semicolon : (⟨.semicolon, ";", .nil, 1⟩ : Token).kind = .semicolon := rfl
  have written := Grammar.Derives.moreDeclarations (.varDef keyword (.unset name semicolon))
    (Grammar.derives_statements .oneLine [.classDef extendingClass] rfl)
  .of_steps rfl rfl rfl written rfl rfl

/-- The machine in which the class is declared. -/
def extendingMachine : Machine := (Eval.execute 2 unsetVariable).after (.start {} {})

/-- That the class extends no class is not reported, but comes out. -/
theorem superclass_fault_escapes :
    Accepted extendingSource extendingProgram ∧
      Visit.Raises ⟨2, .exec (.classDef extendingClass), extendingMachine⟩ (.declaration .superclassNotClass) ∧
      ((Machine.start {} {}).interpret 2 extendingProgram).2 = some (.crashed (.declaration .superclassNotClass)) := by
  have split : extendingProgram = [unsetVariable] ++ .classDef extendingClass :: [] := rfl
  have reached : Reached extendingProgram 2 (.start {} {}) ⟨2, .exec (.classDef extendingClass), extendingMachine⟩ :=
    .statement split rfl
  have raises : Visit.Raises ⟨2, .exec (.classDef extendingClass), extendingMachine⟩
      (.declaration .superclassNotClass) :=
    ⟨1, rfl, .superclass rfl (.notClass (show Eval.readName _ _ _ = .ok .nil _ from rfl) (by simp))⟩
  have escapes := (unreported_endings_iff_escapes accepted_extending 2 (.start {} {})).1
    (.crashed (.declaration .superclassNotClass))
  exact ⟨accepted_extending, raises, escapes.mpr (.inl (.fault reached (.inl raises)))⟩

end LoxLang
