import LoxLang.Proofs.Mirrors
import LoxLang.Proofs.ScanJoined
import LoxLang.Proofs.Spelling
import LoxLang.Proofs.Unparse
import LoxLang.Session

/-!
Sources that are accepted: they are read and their names are resolved without a report. Two such sources, joined by a
line end, are one, and its program is that of the first followed by that of the second, further down.
-/

namespace LoxLang

variable {source : String} {ts : List Token} {program written : List Stmt}

/-- The source is read without a report, and its names are resolved without one; the program is what is run. -/
structure Accepted (source : String) (program : List Stmt) : Prop where
  finished : (scan source).fault = none
  unreported : (scan source).reports = []
  resolved : ∃ written found, parseProgram (scan source).tokens = ⟨.ok written, []⟩ ∧
    (Scope.resolveStmts written).run (.start []) = .ok program found ∧ found.errors = #[]

theorem Scan.tokens_of_finished {s : Scan} (finished : s.fault = none) : s.tokens = s.read ++ [s.endToken] := by
  rw [tokens, finished]
  rfl

/-- A source whose tokens are written for a program is read as the program. -/
theorem parseProgram_of_steps (finished : (scanSteps source).fault = none) (read : (scanSteps source).read = ts)
    (derived : Grammar.Derives (· ≤ Grammar.maxArguments) (.declarations program) ts) :
    parseProgram (scan source).tokens = ⟨.ok program, []⟩ := by
  rw [scanSteps_eq] at finished read
  rw [Scan.tokens_of_finished finished, read]
  exact Grammar.parseProgram_of_derives derived rfl

theorem Accepted.of_steps {found : Scope.State} (finished : (scanSteps source).fault = none)
    (unreported : (scanSteps source).reports = []) (read : (scanSteps source).read = ts)
    (derived : Grammar.Derives (· ≤ Grammar.maxArguments) (.declarations written) ts)
    (resolved : (Scope.resolveStmts written).run (.start []) = .ok program found) (noErrors : found.errors = #[]) :
    Accepted source program := by
  have parsed := parseProgram_of_steps finished read derived
  rw [scanSteps_eq] at finished unreported
  exact ⟨finished, unreported, written, found, parsed, resolved, noErrors⟩

/-! ### Running an accepted source -/

theorem Machine.printAll_nil (m : Machine) : m.printAll [] = m := by simp [printAll]

theorem Session.run_of_accepted {s : Session} (clean : s.journal = .empty) (accepted : Accepted source program)
    (fuel : Nat) : s.run fuel false source =
      (⟨(s.machine.interpret fuel program).1, .empty⟩, (s.machine.interpret fuel program).2.map .ending) := by
  obtain ⟨finished, unreported, written, found, parsed, resolved, noErrors⟩ := accepted
  obtain ⟨machine, journal⟩ := s
  subst clean
  have noReports : found.reports = [] := by simp [Scope.State.reports, noErrors]
  have quiet : (Journal.empty.addAll []).hasErrors = false := rfl
  simp only [run, read, addReports, unreported, finished, parsed, addComplaints, Journal.complainAll, printAll, quiet,
    Bool.false_eq_true, if_false, Machine.printAll_nil, runProgram, resolved, finish, noReports]
  rfl

/-! ### Joining sources -/

theorem tokens_before_end {read more : List Token} {end_ last : Token} (inside : ∀ t ∈ read, t.kind ≠ .endOfFile)
    (isEnd : last.kind = .endOfFile) (same : read ++ [end_] = ts ++ last :: more) : ts = read := by
  rcases List.append_eq_append_iff.mp same with ⟨between, rfl, tail⟩ | ⟨between, rfl, tail⟩
  · cases between with
    | nil => exact List.append_nil _
    | cons => simp at tail
  · cases between with
    | nil => exact (List.append_nil _).symm
    | cons =>
      obtain ⟨rfl, -⟩ := List.cons.inj tail
      exact absurd isEnd (inside last (by simp))

/-- The tokens of a source that is read without a complaint, without the last, are how its program is written. -/
theorem derives_read (finished : (scan source).fault = none)
    (parsed : parseProgram (scan source).tokens = ⟨.ok written, []⟩) :
    Grammar.Derives (· ≤ Grammar.maxArguments) (.declarations written) (scan source).read := by
  obtain ⟨ts, last, more, whole, isEnd, derived⟩ := Grammar.derives_of_parseProgram_clean parsed
  rw [Scan.tokens_of_finished finished] at whole
  have same := tokens_before_end (fun t member => kind_ne_end_of_mem_read member) isEnd whole
  rwa [same] at derived

theorem Scope.resolveStmts_append (first second : List Stmt) :
    resolveStmts (first ++ second) = (do
      let first ← resolveStmts first
      let second ← resolveStmts second
      return first ++ second) := by
  induction first with
  | nil => simp [resolveStmts]
  | cons _ _ ih => simp [resolveStmts, ih]

/-- Outside of all scopes, a program on other lines is resolved behind another one as it is by itself. -/
theorem Scope.resolved_behind {first second : Token → Prop} {written' program' : List Stmt} {found found' : State}
    (parsed : Stmt.AllParsed first written) (resolved : resolveStmts written (.start []) = .ok program found)
    (clean : found.errors = #[]) (parsed' : Stmt.AllParsed second written')
    (resolved' : resolveStmts written' (.start []) = .ok program' found') (clean' : found'.errors = #[])
    {g : Relining} (lines : g.depth = some) (relined : Stmt.AllParsed second (Stmt.relineAll g written')) :
    ∃ all, resolveStmts (Stmt.relineAll g written') found = .ok (Stmt.relineAll g program') all ∧ all.errors = #[] := by
  obtain ⟨rfl, rfl⟩ := fill_of_resolved parsed resolved
  obtain ⟨rfl, rfl⟩ := fill_of_resolved parsed' resolved'
  obtain ⟨same, quiet⟩ := reline_stmts lines written' (State.start []).view
  have ran := runs_stmts (Stmt.relineAll g written') relined (State.start []).view
    ((State.start []).noting (State.start []).view (stmtsNotes (State.start []).view written)) rfl
  rw [same] at ran
  exact ⟨_, ran, errors_noting.mpr ⟨clean, quiet.mpr (errors_noting.mp clean').2⟩⟩

/-- Two accepted sources, one in the lines behind the other, are accepted. -/
theorem Accepted.join {first second : String} {p q : List Stmt} (one : Accepted first p) (two : Accepted second q) :
    Accepted (first ++ "\n" ++ second) (p ++ q.map (Stmt.reline (.lines (· + (scan first).finish.line)))) := by
  obtain ⟨finished, unreported, written, found, parsed, resolved, noErrors⟩ := one
  obtain ⟨finished', unreported', written', found', parsed', resolved', noErrors'⟩ := two
  let down : Relining := .lines (· + (scan first).finish.line)
  have joined : (scan (first ++ "\n" ++ second)).fault = none := by
    rw [scan_join second finished unreported]
    exact finished'
  have below := (derives_read finished' parsed').reline (g := down)
  have relined : Stmt.AllParsed (fun _ => True) (Stmt.relineAll down written') := below.parsed fun _ _ => trivial
  obtain ⟨all, behind, clean⟩ := Scope.resolved_behind
    (Grammar.parsed_of_parseProgram (congrArg Parse.result parsed)) resolved noErrors
    ((derives_read finished' parsed').parsed fun _ _ => trivial) resolved' noErrors' rfl relined
  refine ⟨joined, reports_join finished unreported unreported', written ++ Stmt.relineAll down written', all, ?_, ?_,
    clean⟩
  · rw [Scan.tokens_of_finished joined, read_join second finished unreported]
    exact Grammar.parseProgram_of_derives ((derives_read finished parsed).append below) rfl
  · rw [Scope.resolveStmts_append, ← Stmt.relineAll_eq_map]
    exact Scope.ok_bind.mpr ⟨p, found, resolved, Scope.ok_bind.mpr ⟨_, _, behind, rfl⟩⟩

end LoxLang
