import LoxLang.Prompt
import LoxLang.Proofs.Accepted
import LoxLang.Proofs.DepthTables

/-!
Entries at the prompt that are rejected: they cannot be read to their end, or something is reported about them. Such an
entry is answered, but it leaves the prompt as it was. So the answers to the other entries are those that they get without
it. The depths of names may also be kept in a table to which every entry adds, the rejected ones too: the answers are the
same.
-/

namespace LoxLang

/-- The source is not run: it cannot be split into tokens, or something is reported about its characters, its grammar or
its names. -/
def Rejected (source : String) : Prop :=
  (scan source).fault ≠ none ∨ (scan source).reports ≠ [] ∨ (parseProgram (scan source).tokens).complaints ≠ [] ∨
    ∃ written resolved found, (parseProgram (scan source).tokens).result = .ok written ∧
      (Scope.resolveStmts written).run (.start []) = .ok resolved found ∧ found.errors ≠ #[]

/-! ### Running a rejected source -/

theorem Journal.complainAll_reports (j : Journal) (complaints : List Complaint) :
    (j.complainAll complaints).1.reports = j.reports ++ complaints.map Complaint.report := by
  induction complaints generalizing j with
  | nil => simp [complainAll]
  | cons _ _ ih =>
    simp only [complainAll, complain]
    rw [ih, add, List.map_cons, List.append_assoc, List.singleton_append]

theorem Machine.printAll_printAll (m : Machine) (first second : List String) :
    (m.printAll first).printAll second = m.printAll (first ++ second) := by
  simp [printAll, Array.append_assoc]

namespace Session

/-- Nothing of a session changes but its reports and what is printed. -/
def Spares (s : Session) (result : Session × Option Escape) : Prop :=
  ∃ lines, result.1.machine = s.machine.printAll lines

theorem Spares.of_printed {s s' : Session} {lines : List String} {result : Session × Option Escape}
    (first : s'.machine = s.machine.printAll lines) (second : s'.Spares result) : s.Spares result := by
  obtain ⟨more, printed⟩ := second
  exact ⟨lines ++ more, by rw [printed, first, Machine.printAll_printAll]⟩

theorem spares_runProgram {s : Session} {fuel : Nat} {written resolved : List Stmt} {found : Scope.State}
    (ran : (Scope.resolveStmts written).run (.start []) = .ok resolved found) (reported : found.errors ≠ #[]) :
    s.Spares (s.runProgram fuel written) := by
  have wrong : (s.addReports found.reports).journal.hasErrors = true := by
    simp [addReports, Journal.addAll, Journal.hasErrors, Scope.State.reports, reported]
  simp only [runProgram, ran, finish, wrong, if_true]
  exact ⟨_, rfl⟩

theorem spares_run {s : Session} (clean : s.journal = .empty) {source : String} (rejected : Rejected source)
    (fuel : Nat) : s.Spares (s.run fuel false source) := by
  cases finished : (scan source).fault with
  | some =>
    simp only [run, read, finished]
    exact ⟨[], (Machine.printAll_nil _).symm⟩
  | none =>
    let parsed := parseProgram (scan source).tokens
    let s' := (s.addReports (scan source).reports).addComplaints parsed.complaints
    have printed : s'.machine = s.machine.printAll _ := rfl
    have journal : s'.journal.reports = (scan source).reports ++ parsed.complaints.map Complaint.report := by
      have all := Journal.complainAll_reports (s.journal.addAll (scan source).reports) parsed.complaints
      exact all.trans (by rw [clean]; rfl)
    cases result : (parseProgram (scan source).tokens).result with
    | error =>
      simp only [run, read, finished, result]
      exact ⟨_, printed⟩
    | ok =>
      simp only [run, read, finished, result]
      by_cases wrong : s'.journal.hasErrors = true
      · rw [if_pos wrong]
        exact .of_printed printed ⟨_, rfl⟩
      · rw [if_neg wrong]
        -- Nothing is reported before names are resolved, so it is the names that are wrong.
        have quiet : (scan source).reports = [] ∧ parsed.complaints = [] := by
          simpa [Journal.hasErrors, journal] using wrong
        rcases rejected with stopped | reported | complained | ⟨_, resolved, found, same, ran, reported⟩
        · exact absurd finished stopped
        · exact absurd quiet.1 reported
        · exact absurd quiet.2 complained
        · obtain rfl := Except.ok.inj (result.symm.trans same)
          have none : (s'.printAll []).machine = s'.machine.printAll [] := rfl
          exact .of_printed printed (.of_printed none (spares_runProgram ran reported))

end Session

/-! ### Entries -/

/-- The answer to an entry: what comes out of it, if not its end, and what is printed. -/
structure Reply where
  escape : Option Escape
  printed : List String

/-- The items that are kept when the others are deleted. -/
def kept {α : Type} (keep : List Bool) (items : List α) : List α := ((items.zip keep).filter Prod.snd).map Prod.fst

theorem kept_cons_true {α : Type} (keep : List Bool) (item : α) (rest : List α) :
    kept (true :: keep) (item :: rest) = item :: kept keep rest := rfl

theorem kept_cons_false {α : Type} (keep : List Bool) (item : α) (rest : List α) :
    kept (false :: keep) (item :: rest) = kept keep rest := rfl

/-- Makes entries one after another. -/
def enterAll {σ : Type} (enter : σ → String → Reply × σ) : σ → List String → List Reply × σ
  | s, [] => ([], s)
  | s, source :: rest =>
    let (reply, next) := enter s source
    let (replies, last) := enterAll enter next rest
    (reply :: replies, last)

theorem enterAll_cons {σ : Type} (enter : σ → String → Reply × σ) (s : σ) (source : String) (rest : List String) :
    enterAll enter s (source :: rest) = ((enter s source).1 :: (enterAll enter (enter s source).2 rest).1,
      (enterAll enter (enter s source).2 rest).2) := rfl

theorem length_enterAll {σ : Type} (enter : σ → String → Reply × σ) (s : σ) (sources : List String) :
    (enterAll enter s sources).1.length = sources.length := by
  induction sources generalizing s with
  | nil => rfl
  | cons _ _ ih => exact congrArg (· + 1) (ih _)

namespace Prompt

def reply (p : Prompt) (result : Session × Option Escape) : Reply × Prompt :=
  let (turn, next) := (p.settle result).turn none
  (⟨result.2, turn.printed⟩, next)

def enter (fuel : Nat) (p : Prompt) (source : String) : Reply × Prompt := p.reply (p.session.run fuel false source)

/-- The prompt on a machine, after the greeting has been printed. -/
def greeted (machine : Machine) : Prompt := ((start (.start machine)).turn none).2

/-- Nothing is left of the entries before: no report, and nothing to be printed. -/
structure Ready (p : Prompt) : Prop where
  journal : p.session.journal = .empty
  printed : p.session.machine.printed = #[]

theorem ready_greeted (machine : Machine) : (greeted machine).Ready := ⟨rfl, rfl⟩

theorem ready_enter (p : Prompt) (fuel : Nat) (source : String) : (p.enter fuel source).2.Ready := ⟨rfl, rfl⟩

theorem session_reply (p : Prompt) (result : Session × Option Escape) :
    ∃ lines, (p.reply result).2.session = ⟨{ result.1.machine.printAll lines with printed := #[] }, .empty⟩ := by
  obtain ⟨s, escape⟩ := result
  cases escape with
  | none => exact ⟨[], by rw [Machine.printAll_nil]; rfl⟩
  | some escape => exact ⟨failureLines escape.message, rfl⟩

/-- A rejected entry leaves the prompt as it was. -/
theorem enter_of_rejected {p : Prompt} (ready : p.Ready) {source : String} (rejected : Rejected source) (fuel : Nat) :
    (p.enter fuel source).2 = p := by
  obtain ⟨lines, printed⟩ := Session.spares_run ready.journal rejected fuel
  obtain ⟨more, session⟩ := p.session_reply (p.session.run fuel false source)
  have same : (p.enter fuel source).2.session = p.session := by
    rw [enter, session, printed, Machine.printAll_printAll, ← ready.printed, ← ready.journal]
    rfl
  calc (p.enter fuel source).2 = { p with session := (p.enter fuel source).2.session } := rfl
    _ = p := by rw [same]

/-- If the entries that are deleted are rejected, the others are entered at the same prompts. -/
theorem enterAll_kept {p : Prompt} (ready : p.Ready) (fuel : Nat) {sources : List String} {keep : List Bool}
    (each : keep.length = sources.length) (rejected : ∀ source, (source, false) ∈ sources.zip keep → Rejected source) :
    enterAll (enter fuel) p (kept keep sources) =
      (kept keep (enterAll (enter fuel) p sources).1, (enterAll (enter fuel) p sources).2) := by
  induction sources generalizing p keep with
  | nil => rfl
  | cons source _ ih =>
    obtain ⟨first, keep, rfl⟩ := List.exists_of_length_succ keep each
    have others := ih (ready_enter p fuel source) (Nat.succ.inj each)
      fun source member => rejected source (List.mem_cons_of_mem _ member)
    cases first with
    | true =>
      rw [kept_cons_true, enterAll_cons, enterAll_cons, others]
      rfl
    | false =>
      have unchanged := enter_of_rejected ready (rejected source List.mem_cons_self) fuel
      rw [unchanged] at others
      rw [kept_cons_false, others, enterAll_cons, unchanged]
      rfl

end Prompt

/-! ### Depths in a table -/

section
variable (g : Relining)

def Session.reline (s : Session) : Session := { s with machine := s.machine.reline g }

def Session.relineRun (result : Session × Option Escape) : Session × Option Escape :=
  (result.1.reline g, result.2.map (Escape.reline g))

def Prompt.reline (p : Prompt) : Prompt := { p with session := p.session.reline g }

def Reply.reline (reply : Reply) : Reply := { reply with escape := reply.escape.map (Escape.reline g) }

end

theorem Escape.message_reline (g : Relining) (e : Escape) : (e.reline g).message = e.message := by
  cases e with
  | parse stop => cases stop <;> rfl
  | ending ending => cases ending <;> rfl
  | _ => rfl

/-- Runs a program whose depths are kept in a table. What is resolved stays there, also if the program is not run. -/
def Session.runTabled (s : Session) (table : DepthTable) (fuel : Nat) (program : List Stmt) :
    (Session × Option Escape) × DepthTable :=
  match (Scope.resolveStmts program).run (.start []) with
  | .error fault found =>
    ((s.addReports found.reports, some (.scope fault)), table ++ found.resolutions.toList.map (some ·.depth))
  | .ok program found =>
    let (program, table) := Stmt.tabulateAll program table
    (s.finish found (·.interpretBy table.depth fuel program), table)

/-- A prompt, and the table of the depths in all that has been entered. -/
structure Tabled where
  prompt : Prompt
  table : DepthTable

namespace Tabled

/-- The prompt on a new machine, with an empty table. -/
def start (clock dice : Readings) : Tabled := ⟨.greeted (.start clock dice), []⟩

/-- The prompt with the depths in their places. -/
def filled (t : Tabled) : Prompt := t.prompt.reline (reading t.table)

def run (t : Tabled) (fuel : Nat) (source : String) : (Session × Option Escape) × DepthTable :=
  match t.prompt.session.read false source with
  | (s, .error escape) => ((s, escape), t.table)
  | (s, .ok program) => s.runTabled t.table fuel program

/-- Makes an entry. In what comes out of it, the depths are in their places. -/
def enter (fuel : Nat) (t : Tabled) (source : String) : Reply × Tabled :=
  let (result, table) := t.run fuel source
  let (reply, prompt) := t.prompt.reply result
  (reply.reline (reading table), ⟨prompt, table⟩)

end Tabled

section
variable {table : DepthTable} {s σ : Session} {p π : Prompt} {result original : Session × Option Escape}

/-- Reading a source has nothing to do with depths, and no depths come out of it. -/
theorem Session.read_reline (depth : Nat → Option Nat) (s : Session) (source : String) :
    (s.reline (.depths depth)).read false source =
        ((s.read false source).1.reline (.depths depth), (s.read false source).2) ∧
      ∀ escape, (s.read false source).2 = .error escape → escape.map (Escape.reline (.depths depth)) = escape := by
  simp only [read]
  cases (scan source).fault with
  | some => exact ⟨rfl, fun _ ended => by cases ended; rfl⟩
  | none =>
    cases (parseProgram (scan source).tokens).result with
    | error stop => exact ⟨rfl, fun _ ended => by cases ended; cases stop <;> rfl⟩
    | ok =>
      change (if Journal.hasErrors ((s.addReports _).addComplaints _).journal = true then _ else _) = _ ∧ _
      cases Journal.hasErrors ((s.addReports _).addComplaints _).journal with
      | true => exact ⟨rfl, fun _ ended => by cases ended; rfl⟩
      | false => exact ⟨rfl, fun _ ended => by cases ended⟩

theorem Session.stands_finish (sessions : Stands reline table s σ) (found : Scope.State)
    {interpret interpret' : Machine → Machine × Option Ending}
    (runs : ∀ {m μ}, Stands Machine.reline table m μ → Stands Machine.relineRun table (interpret m) (interpret' μ)) :
    Stands relineRun table (s.finish found interpret) (σ.finish found interpret') := by
  obtain rfl := sessions.read table List.prefix_rfl
  simp only [finish]
  change Stands _ _ _ (if Journal.hasErrors (s.addReports _).journal = true then _ else _)
  cases Journal.hasErrors (s.addReports _).journal with
  | true => exact sessions.map (f := fun s => ((s.addReports found.reports).printReports, none)) fun _ _ => rfl
  | false =>
    have machines : Stands Machine.reline table s.machine _ := sessions.map fun _ _ => rfl
    refine (runs machines).map (f := fun r => (Session.mk r.1 (s.addReports found.reports).journal, r.2.map Escape.ending)) ?_
    rintro depth ⟨m, ending⟩
    cases ending <;> rfl

theorem Session.stands_runTabled (sessions : Stands reline table s σ) (fuel : Nat) (program : List Stmt) :
    table <+: (s.runTabled table fuel program).2 ∧
      Stands relineRun (s.runTabled table fuel program).2 (s.runTabled table fuel program).1 (σ.runProgram fuel program) := by
  simp only [runTabled, runProgram]
  cases (Scope.resolveStmts program).run (.start []) with
  | error fault found =>
    have longer := List.prefix_append table (found.resolutions.toList.map (some ·.depth))
    refine ⟨longer, (sessions.mono longer).map (f := fun s => (s.addReports found.reports, some (Escape.scope fault))) ?_⟩
    exact fun _ _ => rfl
  | ok program found =>
    obtain ⟨longer, programs⟩ := Stmt.tabulatesAll program table
    exact ⟨longer, stands_finish (sessions.mono longer) found fun machines => stands_interpretBy machines programs⟩

theorem Prompt.stands_reply (prompts : Stands reline table p π) (results : Stands Session.relineRun table result original) :
    Stands (fun g r => (r.1.reline g, r.2.reline g)) table (p.reply result) (π.reply original) := by
  refine prompts.both results fun depth p result => ?_
  obtain ⟨s, escape⟩ := result
  cases escape with
  | none => rfl
  | some =>
    simp only [reply, settle, Session.relineRun, Option.map_some, Escape.message_reline]
    rfl

end

namespace Tabled

/-- With the depths in their places, it is the prompt, and every place is in the table. -/
def StandsFor (t : Tabled) (p : Prompt) : Prop := Stands Prompt.reline t.table t.prompt p

theorem standsFor_start (clock dice : Readings) : (start clock dice).StandsFor (.greeted (.start clock dice)) := by
  refine .of_same fun depth => ?_
  have globals := Bindings.map_putAll (Value.reline (.depths depth)) .empty
  have machine : (Machine.start clock dice).reline (.depths depth) = .start clock dice := by
    simp [Machine.reline, Machine.start, Machine.blank, globals]
    rfl
  exact congrArg Prompt.greeted machine

theorem stands_run {t : Tabled} {p : Prompt} (stands : t.StandsFor p) (fuel : Nat) (source : String) :
    t.table <+: (t.run fuel source).2 ∧
      Stands Session.relineRun (t.run fuel source).2 (t.run fuel source).1 (p.session.run fuel false source) := by
  obtain rfl := stands.read t.table List.prefix_rfl
  have read depth := t.prompt.session.read_reline depth source
  have sessions : Stands Session.reline t.table (t.prompt.session.read false source).1 _ :=
    stands.map (f := fun p => (p.session.read false source).1) fun depth p =>
      (congrArg Prod.fst (p.session.read_reline depth source).1).symm
  have same : (t.prompt.reline (reading t.table)).session.read false source = _ := (read t.table.depth).1
  rw [same] at sessions
  rw [run, Session.run, same]
  revert sessions read
  cases t.prompt.session.read false source with
  | mk s program =>
    intro read sessions
    cases program with
    | error escape =>
      refine ⟨List.prefix_rfl, sessions.map (f := fun s => (s, escape)) fun depth s => ?_⟩
      exact congrArg (Prod.mk (s.reline _)) ((read depth).2 _ rfl)
    | ok program => exact Session.stands_runTabled sessions fuel program

/-- An entry is answered as it is with the depths in their places. -/
theorem enter_eq {t : Tabled} {p : Prompt} (stands : t.StandsFor p) (fuel : Nat) (source : String) :
    (t.enter fuel source).1 = (p.enter fuel source).1 ∧ (t.enter fuel source).2.StandsFor (p.enter fuel source).2 := by
  obtain ⟨longer, results⟩ := stands_run stands fuel source
  have replies := Prompt.stands_reply (stands.mono longer) results
  exact ⟨congrArg Prod.fst (replies.read _ List.prefix_rfl), replies.map (f := Prod.snd) fun _ _ => rfl⟩

theorem enterAll_eq {t : Tabled} {p : Prompt} (stands : t.StandsFor p) (fuel : Nat) (sources : List String) :
    (enterAll (enter fuel) t sources).1 = (enterAll (Prompt.enter fuel) p sources).1 ∧
      (enterAll (enter fuel) t sources).2.StandsFor (enterAll (Prompt.enter fuel) p sources).2 := by
  induction sources generalizing t p with
  | nil => exact ⟨rfl, stands⟩
  | cons source rest ih =>
    obtain ⟨reply, next⟩ := enter_eq stands fuel source
    obtain ⟨replies, last⟩ := ih next
    exact ⟨congrArg₂ List.cons reply replies, last⟩

end Tabled

/-- If rejected entries are deleted, all other entries have the same output and the same outcome, with the depths of names
in a table to which the rejected entries have added as well. What is left at the end is the same but for the table, and
each entry has the output and the outcome that it has with the depths in the programs themselves. -/
theorem rejected_entries_unnoticed (clock dice : Readings) (fuel : Nat) {sources : List String} {keep : List Bool}
    (each : keep.length = sources.length) (rejected : ∀ source, (source, false) ∈ sources.zip keep → Rejected source) :
    ∃ replies last last', replies.length = sources.length ∧
      enterAll (Tabled.enter fuel) (.start clock dice) sources = (replies, last) ∧
      enterAll (Tabled.enter fuel) (.start clock dice) (kept keep sources) = (kept keep replies, last') ∧
      last'.filled = last.filled ∧
      enterAll (Prompt.enter fuel) (.greeted (.start clock dice)) sources = (replies, last.filled) := by
  have start := Tabled.standsFor_start clock dice
  have others := Prompt.enterAll_kept (Prompt.ready_greeted (.start clock dice)) fuel each rejected
  obtain ⟨replies, stands⟩ := Tabled.enterAll_eq start fuel sources
  obtain ⟨replies', stands'⟩ := Tabled.enterAll_eq start fuel (kept keep sources)
  rw [others] at replies' stands'
  have last := stands.read _ List.prefix_rfl
  have last' := stands'.read _ List.prefix_rfl
  refine ⟨_, _, _, length_enterAll .., rfl, Prod.ext ?_ rfl, last'.trans last.symm, Prod.ext replies.symm last.symm⟩
  rw [replies', replies]

/-! An entry whose local variable reads itself, between two others. Its depth stays in the table. -/

def selfReading : String := "\x7bvar b=b;\x7d"

theorem rejected_selfReading : Rejected selfReading := by
  let name : Token := .named "b"
  have read : (parseProgram (scan selfReading).tokens).result = .ok [.block [.var name (some (.var name none))]] :=
    congrArg Parse.result (parseProgram_of_steps rfl rfl
      (Grammar.derives_statements .oneLine [.block [.var name (some (.var name none))]] rfl))
  refine .inr (.inr (.inr ⟨_, _, _, read, rfl, ?_⟩))
  intro clean
  cases congrArg Array.size clean

theorem rejected_entry_unnoticed_selfReading :
    Rejected selfReading ∧ ∃ replies last last', last.table = [some 0, none] ∧ last'.table = [none] ∧ replies.length = 3 ∧
      enterAll (Tabled.enter 10) (.start {} {}) ["var a;", selfReading, "print a;"] = (replies, last) ∧
      enterAll (Tabled.enter 10) (.start {} {}) ["var a;", "print a;"] = (kept [true, false, true] replies, last') ∧
      last'.filled = last.filled ∧
      enterAll (Prompt.enter 10) (.greeted (.start {} {})) ["var a;", selfReading, "print a;"] = (replies, last.filled) := by
  have onlyOne : ∀ source, (source, false) ∈ ["var a;", selfReading, "print a;"].zip [true, false, true] →
      Rejected source := by
    intro source deleted
    obtain rfl : source = selfReading := by simpa using deleted
    exact rejected_selfReading
  obtain ⟨replies, last, last', length, all, others, rest⟩ := rejected_entries_unnoticed {} {} 10 rfl onlyOne
  have table : (enterAll (Tabled.enter 10) (.start {} {}) ["var a;", selfReading, "print a;"]).2.table = [some 0, none] :=
    by decide +kernel
  have table' : (enterAll (Tabled.enter 10) (.start {} {}) ["var a;", "print a;"]).2.table = [none] := by decide +kernel
  exact ⟨rejected_selfReading, replies, last, last', (congrArg (·.2.table) all).symm.trans table,
    (congrArg (·.2.table) others).symm.trans table', length, all, others, rest⟩

end LoxLang
