import LoxLang.Proofs.Accepted
import LoxLang.Proofs.Activations

/-!
A return never gets out of a program. In an accepted program every return is written in a function, and when it is
carried out, the call of the innermost function around it catches it and yields what is returned.
-/

namespace LoxLang

/-- No return is written in the statement, outside of functions that are declared there. -/
def Stmt.NoReturn (s : Stmt) : Prop := ∀ keyword value, ¬ s.Holds (.returnValue keyword value)

section
variable {inside : Scope.FunctionContext} {s t : Stmt}

theorem Stmt.allReturnsFit_iff {body : List Stmt} :
    Stmt.AllReturnsFit inside body ↔ ∀ s ∈ body, s.ReturnsFit inside := by
  induction body with
  | nil => simp [Stmt.AllReturnsFit]
  | cons _ _ ih => simp [Stmt.AllReturnsFit, ih]

theorem Stmt.ReturnsFit.part (fits : s.ReturnsFit inside) (part : s.Part t) : t.ReturnsFit inside := by
  cases part with
  | block member => exact Stmt.allReturnsFit_iff.mp fits t member
  | @thenBranch _ _ other =>
    cases other with
    | none => exact fits
    | some => exact fits.1
  | elseBranch => exact fits.2
  | loop => exact fits

theorem Stmt.ReturnsFit.held (fits : s.ReturnsFit inside) (holds : s.Holds t) : t.ReturnsFit inside := by
  induction holds with
  | refl => exact fits
  | tail _ part ih => exact ih.part part

end

variable {source : String} {program : List Stmt}

/-- In an accepted program every return is allowed where it stands. -/
theorem Accepted.returnsFit (accepted : Accepted source program) : Stmt.AllReturnsFit .none program := by
  obtain ⟨-, -, written, found, parsed, resolved, noErrors⟩ := accepted
  have shape := Grammar.parsed_of_parseProgram (congrArg Parse.result parsed)
  exact (Scope.resolved_program shape resolved).returns noErrors

theorem Accepted.noReturn (accepted : Accepted source program) : ∀ s ∈ program, s.NoReturn := fun s member _ _ holds =>
  ((Stmt.allReturnsFit_iff.mp accepted.returnsFit s member).held holds).1 rfl

/-- A statement that returns leads to a return of the same value. -/
theorem Visit.Ends.leads_return {n : Nat} {s : Stmt} {m : Machine} {result : Value}
    (ends : Visit.Ends ⟨n, .exec s, m⟩ (.returned result)) :
    ∃ w keyword value, Visit.Leads ⟨n, .exec s, m⟩ w ∧ w.point = .exec (.returnValue keyword value) ∧
      w.Ends (.returned result) := by
  induction n generalizing s m with
  | zero => exact nomatch (ends.fuel_pos rfl).choose_spec
  | succ n ih =>
    rcases ends.inner rfl with ⟨-, isBroke⟩ | ⟨keyword, value, _, isReturn, -⟩ | ⟨w, enters, inner, -⟩
    · exact nomatch isBroke
    · exact ⟨_, keyword, value, .refl, isReturn, ends⟩
    · obtain ⟨fuel, point, machine⟩ := w
      obtain rfl : n = fuel := Nat.succ.inj enters.1
      cases point with
      | eval => exact absurd inner (Visit.eval_not_returned n)
      | exec t =>
        obtain ⟨w, keyword, value, leads, isReturn⟩ := ih inner
        exact ⟨w, keyword, value, leads.head ⟨enters, ⟨s, rfl⟩, t, rfl⟩, isReturn⟩

theorem Machine.error_of_interpret_returned {m : Machine} {fuel : Nat} {program : List Stmt} {result : Value}
    (ended : (m.interpret fuel program).2 = some (.returned result)) :
    ∃ m', Eval.runAll (Eval.execute fuel) program m = .error (.returned result) m' :=
  (Machine.interpret_ending_iff.mp ended).2

/-- Returns are caught: running an accepted program, from any machine, never ends with a return, and a return that is
carried out on the way is in the body of a function, outside of functions that are declared there, and what it returns
is what the call of that function yields. -/
theorem returns_caught {source : String} {program : List Stmt} (accepted : Accepted source program) (start : Machine)
    (fuel : Nat) :
    (∀ result, (start.interpret fuel program).2 ≠ some (.returned result)) ∧
      ∀ w keyword value result, Reached program fuel start w → w.point = .exec (.returnValue keyword value) →
        w.Ends (.returned result) →
        ∃ v c u, Reached program fuel start v ∧ v.Calls c ∧ c.Enters u ∧ u.Leads w ∧
          (∃ s ∈ c.function.decl.body, u.point = .exec s ∧ s.Holds (.returnValue keyword value)) ∧
          ∃ m, c.run = .ok result m := by
  constructor
  · intro result ended
    obtain ⟨m', failed⟩ := Machine.error_of_interpret_returned ended
    obtain ⟨before, s, rest, m₁, split, -, ends⟩ := Eval.exists_of_runAll_error failed
    have returned : Visit.Ends ⟨fuel, .exec s, m₁⟩ (.returned result) := ⟨m', ends⟩
    obtain ⟨w, keyword, value, leads, isReturn, -⟩ := returned.leads_return
    exact accepted.noReturn s (by simp [split]) keyword value (leads.holds rfl isReturn)
  · intro w keyword value result reached isReturn ends
    rcases reached.activation isReturn with ⟨u, s, member, outer, leads⟩ | ⟨v, c, u, reached, calls, body, leads⟩
    · exact absurd (leads.holds outer isReturn) (accepted.noReturn s member keyword value)
    · obtain ⟨s, member, outer⟩ := body.point_mem
      exact ⟨v, c, u, reached, calls, body, leads, ⟨s, member, outer, leads.holds outer isReturn⟩,
        Call.run_of_returned body (leads.ends ends)⟩

/-- A function that returns a text, and a call of it. -/
def returningSource : String := "fun f()\x7breturn \"x\";\x7df();"

def returnText : Stmt := .returnValue ⟨.kwReturn, "return", .nil, 1⟩ (some (.literal (.string "x")))

def textFunction : FunDecl := ⟨.named "f", some [], [returnText]⟩

def textCall : Expr := .call (.var (.named "f") none) ⟨.rightParen, ")", .nil, 1⟩ []

def returningProgram : List Stmt := [.function textFunction, .expression textCall]

theorem accepted_returning : Accepted returningSource returningProgram :=
  .of_steps rfl rfl rfl (Grammar.derives_statements .oneLine returningProgram rfl) rfl rfl

def returningMachine : Machine := (Eval.execute 4 (.function textFunction)).after (.start {} {})

def textCalled : Call := ⟨2, ⟨0, textFunction, [0], false⟩, [], returningMachine⟩

def textReturned : Visit := ⟨2, .exec returnText, textCalled.entry⟩

theorem reached_textReturned : Reached returningProgram 4 (.start {} {}) textReturned := by
  have split : returningProgram = [.function textFunction] ++ .expression textCall :: [] := rfl
  have statement : Reached returningProgram 4 (.start {} {}) ⟨4, .exec (.expression textCall), returningMachine⟩ :=
    .statement split rfl
  have call : Reached returningProgram 4 (.start {} {}) ⟨3, .eval textCall, returningMachine⟩ := by
    refine statement.inner ⟨rfl, fun fault => ⟨returningMachine, ?_⟩⟩
    simp [Point.layer, Eval.execStep, Parts.crashing, Visit.crash, EStateM.map, discard, Functor.discard,
      Functor.mapConst]
  have made : Visit.Calls ⟨3, .eval textCall, returningMachine⟩ textCalled := .function rfl rfl rfl
  exact call.inner (made.enters ⟨rfl, [], returnText, [], rfl, rfl, rfl⟩)

/-- The text is what the call yields. -/
theorem returns_caught_text :
    Accepted returningSource returningProgram ∧ Reached returningProgram 4 (.start {} {}) textReturned ∧
      textReturned.Ends (.returned (.string "x")) ∧
      ∃ v c u, Reached returningProgram 4 (.start {} {}) v ∧ v.Calls c ∧ c.Enters u ∧ u.Leads textReturned ∧
        (∃ s ∈ c.function.decl.body, u.point = .exec s ∧ s.Holds returnText) ∧ ∃ m, c.run = .ok (.string "x") m := by
  have ends : textReturned.Ends (.returned (.string "x")) := ⟨textCalled.entry, rfl⟩
  exact ⟨accepted_returning, reached_textReturned, ends,
    (returns_caught accepted_returning (.start {} {}) 4).2 _ _ _ _ reached_textReturned rfl ends⟩

end LoxLang
