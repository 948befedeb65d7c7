import LoxLang.Proofs.Accepted
import LoxLang.Proofs.LockstepRuns
import LoxLang.Proofs.Steps

/-!
The run of an accepted program from the start. Every function that is called in it is one that the program declares.
-/

namespace LoxLang

/-- The run of an accepted program. Methods of classes themselves are allowed, so it need not be exact. -/
def Run.ofAccepted {source : String} {program : List Stmt} (accepted : Accepted source program) (fuel : Nat)
    (clock dice : Readings) : Run :=
  have resolved : ∃ written found, Scope.ProgramResolved (· ∈ (scan source).tokens) written program found ∧
      found.errors = #[] := by
    obtain ⟨-, -, written, found, parsed, resolved, clean⟩ := accepted
    have shape := Grammar.parsed_of_parseProgram (congrArg Parse.result parsed)
    exact ⟨written, found, Scope.resolved_program shape resolved, clean⟩
  { source := (· ∈ (scan source).tokens), program, fuel, clock, dice
    spelled := spelled_tokens source
    parsed := by
      obtain ⟨_, _, all, -⟩ := resolved
      exact all.parsed
    settled := by
      obtain ⟨_, _, all, clean⟩ := resolved
      exact all.settles (spelled_tokens source) clean
    exact := false
    straight := nofun }

namespace Run

variable {r : Run} {m : Machine}

theorem FunctionOk.mem_functions {f : Closure} (function : r.FunctionOk m f) : f.decl ∈ r.functions := by
  obtain ⟨⟨σ, code, -⟩, -⟩ := function
  exact code.1

theorem MethodOk.mem_functions {f : Closure} (method : r.MethodOk m f) : f.decl ∈ r.functions := by
  obtain ⟨object, σ, -, code, -⟩ := method
  exact code.1

theorem mem_functions_of_calls {v : Visit} {c : Call} (reached : r.Reaches v) (calls : v.Calls c) :
    c.function.decl ∈ r.functions := by
  cases calls with
  | function evaluated =>
    have function : r.FunctionOk _ _ := (first_ok (fun _ => rfl) reached evaluated).2
    exact function.mem_functions
  | @initializer n m m₁ m₂ m₃ m₄ callee paren arguments k args id f bound evaluated given enough made found binds =>
    have fine : r.ClassOk _ _ := (first_ok (fun _ => rfl) reached evaluated).2
    have same : bound.decl = f.decl := by
      obtain ⟨rfl, -⟩ := EStateM.Result.ok.inj binds
      rfl
    show bound.decl ∈ r.functions
    rw [same]
    exact (fine.1 initName f found).mem_functions
  | @getter n m m₁ m₂ object name value f evaluated read isGetter =>
    obtain ⟨ok, fine⟩ := first_ok (fun _ => rfl) reached evaluated
    have function : r.FunctionOk _ f := ((quiet_readProperty ok fine name).of_ok read).2
    exact function.mem_functions

end Run
end LoxLang
