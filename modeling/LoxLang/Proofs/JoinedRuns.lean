import LoxLang.Proofs.Accepted
import LoxLang.Proofs.RelinedRuns

/-!
Running in pieces. If two sources are accepted and the first runs to its end, then running one after the other comes to
the same as running them joined by a line end, but for the lines on which things were declared and met.
-/

namespace LoxLang

open Eval

section
variable {g : Relining}

theorem isBuiltinBinding_reline (name : String) (value : Value) :
    isBuiltinBinding name (value.reline g) = isBuiltinBinding name value := by
  cases value <;> rfl

theorem Machine.globals_reline (m : Machine) :
    (m.reline g).globals = m.globals.map fun entry => (entry.1, entry.2.reline g) := by
  simp only [globals, frame_reline, Bindings.map, List.filter_map]
  congr 1
  refine List.filter_congr fun entry _ => ?_
  simp only [Function.comp_apply, isBuiltinBinding_reline]

end

theorem Machine.interpret_append {m m' : Machine} {fuel : Nat} {first : List Stmt}
    (ends : m.perform (runAll (execute fuel) first) = (m', none)) (second : List Stmt) :
    m.interpret fuel (first ++ second) = m'.interpret fuel second := by
  simp only [perform, EStateM.run] at ends
  simp only [interpret, perform, EStateM.run, runAll_append]
  cases ran : runAll (execute fuel) first m with
  | error => simp [ran] at ends
  | ok _ after =>
    obtain rfl : after = m' := by simpa [ran] using ends
    rw [bind_of_ok ran]

theorem Machine.interpret_of_ends {m m' : Machine} {fuel : Nat} {program : List Stmt}
    (ends : m.perform (runAll (execute fuel) program) = (m', none)) :
    m.interpret fuel program = (m', none) := by
  rw [interpret, ends]

/-- Two runs come to the same, but for the lines on which things were declared and met. -/
structure SameRun (a b : Session × Option Escape) : Prop where
  journal : a.1.journal = b.1.journal
  printed : a.1.machine.printed = b.1.machine.printed
  globals : a.1.machine.globals.map (fun entry => (entry.1, entry.2.reline noLine)) =
    b.1.machine.globals.map fun entry => (entry.1, entry.2.reline noLine)
  machine : a.1.machine.reline noLine = b.1.machine.reline noLine
  escape : a.2.map (Escape.reline noLine) = b.2.map (Escape.reline noLine)

/-- Two programs that differ in lines only come to the same on any machine. -/
theorem sameRun_of_reline {p q : List Stmt} (same : p.map (Stmt.reline noLine) = q.map (Stmt.reline noLine)) (m : Machine)
    (fuel : Nat) :
    SameRun (⟨(m.interpret fuel p).1, .empty⟩, (m.interpret fuel p).2.map .ending)
      (⟨(m.interpret fuel q).1, .empty⟩, (m.interpret fuel q).2.map .ending) := by
  have looked (depth : Option Nat) : (depth.bind noLine.depth).bind some = depth.bind some := Option.bind_assoc ..
  have one := m.interpretBy_reline rfl looked fuel p
  have two := m.interpretBy_reline rfl looked fuel q
  rw [same, two, Machine.relineRun, Machine.relineRun, Prod.mk.injEq, m.interpretBy_some] at one
  obtain ⟨machine, ending⟩ := one
  refine ⟨rfl, (congrArg Machine.printed machine.symm :), ?_, machine.symm, ?_⟩
  · rw [← Machine.globals_reline, ← Machine.globals_reline, machine]
  · simp only [Option.map_map, Function.comp_def, Escape.reline]
    simpa only [Option.map_map, Function.comp_def] using congrArg (Option.map Escape.ending) ending.symm

theorem map_reline_noLine (g : Nat → Nat) (program : List Stmt) :
    (program.map (Stmt.reline (.lines g))).map (Stmt.reline noLine) = program.map (Stmt.reline noLine) := by
  rw [List.map_map]
  exact List.map_congr_left fun s _ => Stmt.reline_reline noLine (.lines g) s

/-- Running in pieces comes to the same as running at once: two accepted sources, the first of which runs to its end, are
accepted when they are joined, and running them joined comes to the same as running one after the other. -/
theorem Session.run_join {s : Session} (clean : s.journal = .empty) {first second : String} {p q : List Stmt}
    (one : Accepted first p) (two : Accepted second q) {fuel : Nat} {m : Machine}
    (ends : s.machine.perform (Eval.runAll (Eval.execute fuel) p) = (m, none)) :
    (∃ program, Accepted (first ++ "\n" ++ second) program) ∧ s.run fuel false first = (⟨m, .empty⟩, none) ∧
      SameRun (s.run fuel false (first ++ "\n" ++ second)) ((s.run fuel false first).1.run fuel false second) := by
  have joined := one.join two
  have apart : s.run fuel false first = (⟨m, .empty⟩, none) := by
    rw [run_of_accepted clean one, Machine.interpret_of_ends ends]
    rfl
  refine ⟨⟨_, joined⟩, apart, ?_⟩
  rw [run_of_accepted clean joined, apart, run_of_accepted rfl two, Machine.interpret_append ends]
  exact sameRun_of_reline (map_reline_noLine _ q) m fuel

/-- A function, and a comment up to the end of the source. -/
def definingSource : String := "fun f()\x7breturn \"x\";\x7d//"

def callingSource : String := "print f();"

def functionName : Token := .named "f"

def definingProgram : List Stmt :=
  [.function ⟨functionName, some [], [.returnValue ⟨.kwReturn, "return", .nil, 1⟩ (some (.literal (.string "x")))]⟩]

def callingProgram : List Stmt := [.print (.call (.var functionName none) ⟨.rightParen, ")", .nil, 1⟩ [])]

theorem accepted_defining : Accepted definingSource definingProgram :=
  .of_steps rfl rfl rfl (Grammar.derives_statements .oneLine definingProgram rfl) rfl rfl

theorem accepted_calling : Accepted callingSource callingProgram :=
  .of_steps rfl rfl rfl (Grammar.derives_statements .oneLine callingProgram rfl) rfl rfl

/-- The comment at the end of the first source does not swallow the second one. -/
theorem Session.run_join_defining :
    (Session.start (.start {} {})).journal = .empty ∧ Accepted definingSource definingProgram ∧
      Accepted callingSource callingProgram ∧
      (∃ m, (Machine.start {} {}).perform (Eval.runAll (Eval.execute 5) definingProgram) = (m, none)) ∧
      SameRun ((Session.start (.start {} {})).run 5 false (definingSource ++ "\n" ++ callingSource))
        (((Session.start (.start {} {})).run 5 false definingSource).1.run 5 false callingSource) := by
  have ends : (Machine.start {} {}).perform (Eval.runAll (Eval.execute 5) definingProgram) = (_, none) := rfl
  exact ⟨rfl, accepted_defining, accepted_calling, ⟨_, ends⟩,
    (Session.run_join rfl accepted_defining accepted_calling ends).2.2⟩

end LoxLang
