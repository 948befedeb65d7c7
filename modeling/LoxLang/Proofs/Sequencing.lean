import Mathlib
import LoxLang.Session

/-!
Computations one after another. Evaluation goes on behind a part that ends well and stops behind one that does not, and
a loop goes on behind a body that it has not caught breaking.
-/

namespace LoxLang.Eval

variable {α β : Type}

/-- The machine that a computation leaves, however it ends. -/
def after (x : Eval α) (m : Machine) : Machine :=
  match x m with
  | .ok _ m' => m'
  | .error _ m' => m'

variable {f : α → Eval β} {m m' : Machine} {x : Eval α}

theorem bind_of_ok {a : α} (ends : x m = .ok a m') :
    (x >>= f) m = f a m' := by
  simp only [Bind.bind, EStateM.bind, ends]

theorem bind_of_error {ending : Ending}
    (ends : x m = .error ending m') : (x >>= f) m = .error ending m' := by
  simp only [Bind.bind, EStateM.bind, ends]

theorem after_bind_of_ok {a : α} (ends : x m = .ok a m') :
    (x >>= f).after m = (f a).after m' := by
  rw [after, bind_of_ok ends, ← after]

theorem after_bind_of_error {ending : Ending}
    (ends : x m = .error ending m') : (x >>= f).after m = m' := by
  rw [after, bind_of_error ends]

/-- Runs the body of a loop, and tells whether the loop goes on. -/
def catchBreak (body : Eval Unit) : Eval Bool := fun m =>
  match body m with
  | .ok _ m => .ok true m
  | .error .broke m => .ok false m
  | .error ending m => .error ending m

/-- A loop tests, and goes on after the body unless that breaks it. -/
theorem repeatWhile_succ (test : Eval Bool) (body : Eval Unit) (n : Nat) :
    repeatWhile test body (n + 1) = (do
      let holds ← test
      if holds then
        let again ← catchBreak body
        if again then repeatWhile test body n else return ()
      else return ()) := by
  funext m
  simp only [repeatWhile, Bind.bind, EStateM.bind]
  cases test m with
  | error => rfl
  | ok holds m₁ =>
    cases holds with
    | false => rfl
    | true =>
      cases ends : body m₁ with
      | ok => simp only [if_true, EStateM.bind, catchBreak, ends]
      | error ending =>
        simp only [if_true, EStateM.bind, catchBreak, ends]
        cases ending <;> rfl

theorem runAll_append (run : Runner) (first second : List Stmt) :
    runAll run (first ++ second) = (do runAll run first; runAll run second) := by
  induction first with
  | nil => rfl
  | cons s rest ih =>
    show (run s >>= fun _ => runAll run (rest ++ second)) = (run s >>= fun _ => runAll run rest) >>= _
    rw [ih, bind_assoc]

theorem runAll_singleton (run : Runner) (s : Stmt) : runAll run [s] = run s := bind_pure _

end LoxLang.Eval
