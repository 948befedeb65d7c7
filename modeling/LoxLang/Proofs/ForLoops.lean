import LoxLang.Proofs.Coverage
import LoxLang.Proofs.PlacedLoops
import LoxLang.Proofs.ScopeRestored
import LoxLang.Proofs.SpacedScopes

/-!
What a `for` loop does, and what the statement does that it is read as. In that statement every turn of a loop with an
increment is a block, so there is one more scope around the body and one more frame for each turn. There are two ways to
tell the difference: a break that gets out of the increment ends the loop quietly, and a name in a class method whose
depth leads out of the body ends up in the frame of the turn.
-/

namespace LoxLang

open Eval

/-- A `for` loop, as it is written. -/
structure ForLoop where
  initializer : Option Stmt
  condition : Option Expr
  increment : Option Expr
  body : Stmt

variable {source : Token → Prop} {loop : ForLoop}

namespace ForLoop

/-! ### The meaning of a loop -/

def tree (loop : ForLoop) : Stmt := Grammar.forLoop loop.initializer loop.condition loop.increment loop.body

def resolveFirst : Option Stmt → Scope.Resolve (Option Stmt)
  | none => return none
  | some first => return some (← Scope.resolveStmt first)

def resolveParts (loop : ForLoop) : Scope.Resolve ForLoop := do
  let init ← resolveFirst loop.initializer
  let test ← Scope.resolveExpr? loop.condition
  let body ← Scope.resolveStmt loop.body
  let increment ← Scope.resolveExpr? loop.increment
  return ⟨init, test, increment, body⟩

/-- Resolves a loop. Its parts share the scope of the initializer. -/
def resolve (loop : ForLoop) : Scope.Resolve ForLoop := Scope.inScopeIf loop.initializer.isSome [] loop.resolveParts

/-- Tells whether there is another turn. A loop without a condition goes on. -/
def test (condition : Option Expr) (n : Nat) : Eval Bool :=
  match condition with
  | none => return true
  | some condition => return (← evaluate n condition).isTruthy

/-- One turn after another, at most a number of them. A break in the body ends the loop; after a body that ends normally
comes the step. If a break gets out of the step, that is left to `stray`. -/
def turns (stray : Eval Unit) (test : Eval Bool) (body step : Eval Unit) : Nat → Eval Unit
  | 0 => throw .outOfFuel
  | n + 1 => do
    if ← test then
      if ← catchBreak body then
        if ← catchBreak step then turns stray test body step n else stray

/-- The turns of a loop within a number of layers of evaluation. -/
def repeated (loop : ForLoop) (stray : Eval Unit) (n : Nat) : Eval Unit :=
  match loop.increment with
  | none => turns stray (test loop.condition n) (execute n loop.body) (return ()) n
  | some increment =>
    turns stray (test loop.condition n) (execute (n - 1) loop.body) (execute (n - 1) (.expression increment)) n

/-- Runs a loop. The initializer is run once, in a frame of its own that is in sight until the loop ends. -/
def run (loop : ForLoop) (stray : Eval Unit) (fuel : Nat) : Eval Unit :=
  match loop.initializer with
  | none => loop.repeated stray fuel
  | some first => inFrame do
    execute fuel first
    loop.repeated stray (fuel - 1)

structure Parsed (source : Token → Prop) (loop : ForLoop) : Prop where
  initializer : ∀ first, loop.initializer = some first → first.Parsed source
  condition : Expr.OptionParsed source loop.condition
  increment : Expr.OptionParsed source loop.increment
  plain : loop.body.isPlain = true
  body : loop.body.Parsed source

/-! ### Breaks that get out of the increment -/

/-- From every machine the two end in the same way, except that the one may end with a break and the other quietly. -/
def Strays (x x' : Eval Unit) : Prop := ∀ m, x m = x' m ∨ ∃ m', x m = .error .broke m' ∧ x' m = .ok () m'

theorem strays_refl (x : Eval Unit) : Strays x x := fun _ => .inl rfl

theorem strays_bind {α : Type} {x : Eval α} {f f' : α → Eval Unit} (next : ∀ a, Strays (f a) (f' a)) :
    Strays (x >>= f) (x >>= f') := by
  intro m
  cases ends : x m with
  | ok a m₁ =>
    rw [bind_of_ok ends, bind_of_ok ends]
    exact next a m₁
  | error =>
    rw [bind_of_error ends, bind_of_error ends]
    exact .inl rfl

theorem Strays.inFrame {x x' : Eval Unit} (inner : Strays x x') : Strays (Eval.inFrame x) (Eval.inFrame x') := by
  intro m
  rw [inFrame_eq, inFrame_eq]
  rcases inner m.entered with same | ⟨m₁, broke, quiet⟩
  · rw [same]
    exact .inl rfl
  · rw [broke, quiet]
    exact .inr ⟨{ m₁ with scope := m.scope }, rfl, rfl⟩

theorem strays_turns (test : Eval Bool) (body step : Eval Unit) (n : Nat) :
    Strays (turns (throw .broke) test body step n) (turns (pure ()) test body step n) := by
  induction n with
  | zero => exact strays_refl _
  | succ _ ih =>
    refine strays_bind fun holds => ?_
    cases holds with
    | false => exact strays_refl _
    | true =>
      refine strays_bind fun again => ?_
      cases again with
      | false => exact strays_refl _
      | true =>
        refine strays_bind fun goesOn => ?_
        cases goesOn with
        | true => exact ih
        | false => exact fun m => .inr ⟨m, rfl, rfl⟩

theorem strays_run (loop : ForLoop) (fuel : Nat) : Strays (loop.run (throw .broke) fuel) (loop.run (pure ()) fuel) := by
  have turning (n : Nat) : Strays (loop.repeated (throw .broke) n) (loop.repeated (pure ()) n) := by
    unfold repeated
    split
    · exact strays_turns _ _ _ n
    · exact strays_turns _ _ _ n
  unfold run
  split
  · exact turning fuel
  · exact (strays_bind fun _ => turning (fuel - 1)).inFrame

/-! ### The loop as a `while` loop -/

/-- If a break in the step is as good as one in the body, the step can be taken for the end of the body. -/
theorem turns_quiet (test : Eval Bool) (body step : Eval Unit) (n : Nat) :
    turns (pure ()) test body step n = repeatWhile test (do body; step) n := by
  have caught (rest : Eval Unit) : (do
      if ← catchBreak body then
        if ← catchBreak step then rest) = (do
      let again ← catchBreak (do body; step)
      if again then rest else return ()) := by
    funext m
    simp only [catchBreak, Bind.bind, EStateM.bind]
    cases body m with
    | ok => rfl
    | error ending => cases ending <;> rfl
  induction n with
  | zero => rfl
  | succ _ ih => rw [turns, repeatWhile_succ, ih, caught]

def tested (test : Option Expr) : Expr := test.getD (.literal (.bool true))

/-- A loop around a statement that is run in each turn, inside the scope of its initializer. -/
def around (init : Option Stmt) (test : Option Expr) (turn : Stmt) : Stmt :=
  match init with
  | none => .whileLoop (tested test) turn
  | some first => .block [first, .whileLoop (tested test) turn]

/-- The statement that is run in each turn. -/
def turn (increment : Option Expr) (body : Stmt) : Stmt :=
  match increment with
  | none => body
  | some value => .block [body, .expression value]

theorem tree_eq (loop : ForLoop) :
    loop.tree = around loop.initializer loop.condition (turn loop.increment loop.body) := by
  obtain ⟨init, test, increment, body⟩ := loop
  cases init <;> cases increment <;> rfl

theorem test_eq (condition : Option Expr) (n : Nat) :
    test condition (n + 1) = (return (← evaluate (n + 1) (tested condition)).isTruthy) := by
  cases condition <;> rfl

theorem execute_around (init : Option Stmt) (test : Option Expr) (s : Stmt) (fuel : Nat) :
    execute (fuel + 1) (around init test s) =
      match init with
      | none =>
        repeatWhile (return (← evaluate fuel (tested test)).isTruthy) (execute fuel s) fuel
      | some first => inFrame (do
        execute fuel first
        repeatWhile (return (← evaluate (fuel - 1) (tested test)).isTruthy) (execute (fuel - 1) s) (fuel - 1)) := by
  cases init with
  | none => rfl
  | some first =>
    have made : execute (fuel + 1) (.block [first, .whileLoop (tested test) s]) = inFrame (do
        execute fuel first
        runAll (execute fuel) [.whileLoop (tested test) s]) := rfl
    have loops : execute fuel (.whileLoop (tested test) s) =
        repeatWhile (return (← evaluate (fuel - 1) (tested test)).isTruthy) (execute (fuel - 1) s) (fuel - 1) := by
      cases fuel with
      | zero => rfl
      | succ => rfl
    rw [around, made, runAll_singleton, loops]

theorem repeated_plain (init : Option Stmt) (test : Option Expr) (body : Stmt) (n : Nat) :
    repeated ⟨init, test, none, body⟩ (pure ()) (n + 1) =
      repeatWhile (return (← evaluate (n + 1) (tested test)).isTruthy) (execute (n + 1) body) (n + 1) := by
  have alone : (do execute (n + 1) body; pure ()) = execute (n + 1) body := bind_pure _
  rw [← test_eq, ← alone]
  exact turns_quiet _ _ _ (n + 1)

theorem repeated_stepped (init : Option Stmt) (test : Option Expr) (value : Expr) (body : Stmt) (n : Nat) :
    repeated ⟨init, test, some value, body⟩ (pure ()) (n + 1) =
      repeatWhile (return (← evaluate (n + 1) (tested test)).isTruthy)
        (do execute n body; execute n (.expression value)) (n + 1) := by
  rw [← test_eq]
  exact turns_quiet _ _ _ (n + 1)

/-- What is run in each turn, for the body and the increment of a loop. In a block, what stands outside is one scope
further away. -/
inductive Turned : Option Expr → Stmt → Stmt → Prop
  | plain {body s : Stmt} (same : s = body) : Turned none body s
  | stepped {value value' : Expr} {body body' : Stmt} (inner : Stmt.Shifted Nat.succ body body')
    (step : Expr.Shifted Nat.succ value value') : Turned (some value) body (.block [body', .expression value'])

theorem keeps_scope_expression (n : Nat) (e : Expr) :
    Keeps (fun m m' => m'.scope = m.scope) (execute n (.expression e)) := by
  cases n with
  | zero => exact keeps_throw enclosing_scope.outer _
  | succ n => exact .map _ (keeps_scope_evaluate n e)

theorem keeps_scope_turn {body : Stmt} (plain : body.isPlain = true) (parsed : body.Parsed source) (value : Expr)
    (n : Nat) : Keeps (fun m m' => m'.scope = m.scope) (do execute n body; execute n (.expression value)) := by
  have noClass : ∀ decl, body ≠ .classDef decl := by
    rintro decl rfl
    cases plain
  exact .bind enclosing_scope.outer (keeps_scope_execute n parsed noClass) fun _ =>
    keeps_scope_expression n value

/-- A turn and what stands in the block of a turn end alike. -/
theorem follows_turn (p : Placement) {m m' : Machine} (pair : p.Machines Nat.succ m m') {value value' : Expr}
    {body body' : Stmt} (inner : Stmt.Shifted Nat.succ body body') (step : Expr.Shifted Nat.succ value value')
    (n : Nat) : p.Follows Nat.succ m m' (do execute n body; execute n (.expression value))
      (runAll (execute n) [body', .expression value']) Eq := by
  have follow := p.partsFollow_ofFuel n
  refine (follow.exec pair inner).bind ?_
  rintro _ _ m₁ m₁' pair₁ -
  have stepped := follow.exec pair₁ (.expression step)
  rw [runAll_singleton]
  exact stepped

section
variable (plain : loop.body.isPlain = true) (parsed : loop.body.Parsed source)
  {s : Stmt} (turned : Turned loop.increment loop.body s) {p : Placement} {m m' : Machine}
include plain parsed turned

open Placement

theorem trails_repeated (n : Nat) (pair : p.Machines id m m') (laidOut : m.LaidOut) :
    p.Trails m m' (loop.repeated (pure ()) n)
      (repeatWhile (return (← evaluate n (tested loop.condition)).isTruthy) (execute n s) n) Eq := by
  cases n with
  | zero =>
    have none_ : loop.repeated (pure ()) 0 = throw .outOfFuel := by
      unfold repeated
      split <;> rfl
    rw [none_]
    exact (follows_throw pair .outOfFuel).trails
  | succ n =>
    have tests (q : Placement) {m m' : Machine} (pair : q.Machines id m m') :=
      q.simulation.follows_test pair
        ((q.partsFollow_ofFuel (n + 1)).evals (Expr.shifted_refl (tested loop.condition)))
    obtain ⟨init, test, increment, body⟩ := loop
    cases turned with
    | plain same =>
      rw [repeated_plain, same]
      have follow := p.partsFollow_ofFuel (n + 1)
      exact Follows.trails (p.simulation.follows_repeatWhile pair catchesBreak
        (follow.evals (Expr.shifted_refl _)) (follow.execs (Stmt.shifted_refl _)) (n + 1))
    | @stepped value value' _ body' inner step =>
      rw [repeated_stepped]
      exact trails_repeatWhile tests (fun q _ _ pair => follows_turn q pair inner step n)
        (keeps_scope_turn plain parsed value n)
        (later_bind (later_evaluate _ _) fun _ => later_pure _)
        (later_bind (later_execute _ _) fun _ => later_execute _ _) (n + 1) pair laidOut

/-- The loop and the statement that it is read as end alike, if a break that gets out of the increment ends the loop. -/
theorem trails_run (fuel : Nat) (pair : p.Machines id m m') (laidOut : m.LaidOut) :
    p.Trails m m' (loop.run (pure ()) fuel) (execute (fuel + 1) (around loop.initializer loop.condition s)) Eq := by
  rw [execute_around, run]
  cases loop.initializer with
  | none => exact trails_repeated plain parsed turned fuel pair laidOut
  | some first =>
    refine Trails.inFrame (fun pair laidOut => ?_) pair laidOut
    have started := (p.partsFollow_ofFuel fuel).exec pair (Stmt.shifted_refl first)
    refine started.trails.bind (later_execute fuel first) laidOut ?_
    rintro q _ _ m₁ m₁' pair₁ laidOut₁ -
    exact trails_repeated plain parsed turned (fuel - 1) pair₁ laidOut₁

end

/-! ### Resolving the loop -/

/-- The same is known in both states, but for the depths found so far. -/
structure SameContext (st st' : Scope.State) : Prop where
  scopes : st'.scopes.items = st.scopes.items
  function : st'.function = st.function
  classBody : st'.classBody = st.classBody
  errors : st'.errors = st.errors

open Scope in
/-- The statement that is run in each turn, with its depths filled in. The block of a turn is a scope that has no names. -/
theorem turned_fill (spelled : Spelled source) (parsed : loop.Parsed source)
    (inward : loop.increment.isSome = true → AllInward (stmtMentions [] loop.body)) {v : View}
    (ready : Ready v.scopes) :
    Turned (loop.increment.map (fillExpr v)) (fillStmt v loop.body) (fillStmt v (turn loop.increment loop.body)) ∧
      reportsOf (stmtNotes v (turn loop.increment loop.body)) =
        reportsOf (stmtNotes v loop.body ++ optionNotes v loop.increment) := by
  obtain ⟨init, test, increment, body⟩ := loop
  cases increment with
  | none => exact ⟨.plain rfl, by simp [turn, optionNotes]⟩
  | some value =>
    have views : Spaced v.scopes [] v (v.push []) := ⟨rfl, rfl, rfl, rfl⟩
    obtain ⟨shifted, reports⟩ :=
      spaced_stmt spelled ready body parsed.body (fun _ => parsed.plain) open_nil (inward rfl) views
    obtain ⟨moved, others⟩ :=
      spaced_expr spelled ready views value (parsed.increment value rfl) (allInward_top _)
    have inside : (v.push []).set (declaredNames body) = v.push [] := by
      rw [declaredNames_of_isPlain parsed.plain, View.set_nil]
    simp only [turn, fillStmt, fillStmts, stmtNotes, stmtsNotes, inside, List.append_nil]
    exact ⟨.stepped shifted moved, reports_append reports others⟩

theorem parsed_turn (parsed : loop.Parsed source) :
    (turn loop.increment loop.body).isPlain = true ∧ (turn loop.increment loop.body).Parsed source := by
  obtain ⟨init, test, increment, body⟩ := loop
  cases increment with
  | none => exact ⟨parsed.plain, parsed.body⟩
  | some value => exact ⟨rfl, parsed.body, parsed.increment value rfl, trivial⟩

theorem parsed_tested {test : Option Expr} (parsed : Expr.OptionParsed source test) :
    (tested test).Parsed source := by
  cases test with
  | none => trivial
  | some value => exact parsed value rfl

open Scope in
/-- The parts of a loop behind its initializer, and the `while` loop. -/
theorem resolve_while (spelled : Spelled source) (parsed : loop.Parsed source)
    (inward : loop.increment.isSome = true → AllInward (stmtMentions [] loop.body)) {v w : View}
    (ready : Ready w.scopes) {init : Option Stmt} {notes : List Note}
    (first : Runs (resolveFirst loop.initializer) v init w notes) :
    ∃ resolved s more more', Runs loop.resolveParts v resolved w (notes ++ more) ∧ resolved.initializer = init ∧
      Runs (resolveStmt (.whileLoop (tested loop.condition) (turn loop.increment loop.body))) w
        (.whileLoop (tested resolved.condition) s) w more' ∧ reportsOf more' = reportsOf more ∧
      Turned resolved.increment resolved.body s ∧ resolved.body.isPlain = true ∧ resolved.body.Parsed source := by
  obtain ⟨turned, reports⟩ := turned_fill spelled parsed inward ready
  obtain ⟨plain, shape⟩ := parsed_turn parsed
  have test : fillExpr w (tested loop.condition) = tested (loop.condition.map (fillExpr w)) ∧
      exprNotes w (tested loop.condition) = optionNotes w loop.condition := by
    cases loop.condition <;> exact ⟨rfl, rfl⟩
  have parts : Runs loop.resolveParts v _ w _ := first.bind ((runs_option _ parsed.condition w).bind
    (((runs_stmt _ parsed.body w).plain parsed.plain).bind (runs_option _ parsed.increment w).map))
  have loops := (runs_stmt (.whileLoop (tested loop.condition) (turn loop.increment loop.body))
    ⟨parsed_tested parsed.condition, plain, shape⟩ w).plain rfl
  rw [fillStmt, stmtNotes, test.1, test.2] at loops
  exact ⟨_, _, _, _, parts, rfl, loops, reports_append rfl reports, turned, (isPlain_fillStmt w _).trans parsed.plain,
    (parsed_fillStmt _ w).mpr parsed.body⟩

open Scope in
/-- Resolving a loop and resolving the statement that it is read as find the same, and leave the scopes as they were. -/
theorem resolve_tree (spelled : Spelled source) (parsed : loop.Parsed source)
    (inward : loop.increment.isSome = true → AllInward (stmtMentions [] loop.body)) {st : State} {σ : Regions}
    (names : namesOf σ = st.scopes.items) (enclosed : Encloses σ st.classBody) :
    ∃ resolved st₁ s st₂, loop.resolve st = .ok resolved st₁ ∧
      resolveStmt loop.tree st = .ok (around resolved.initializer resolved.condition s) st₂ ∧
      Turned resolved.increment resolved.body s ∧ resolved.body.isPlain = true ∧ resolved.body.Parsed source ∧
      st₁.scopes.items = st.scopes.items ∧ SameContext st₁ st₂ := by
  have alike {notes notes' : List Note} (same : reportsOf notes' = reportsOf notes) :
      SameContext (st.noting st.view notes) (st.noting st.view notes') :=
    ⟨rfl, rfl, rfl, by simp [State.noting, same]⟩
  rw [tree_eq, resolve]
  cases written : loop.initializer with
  | none =>
    have absent : Runs (resolveFirst loop.initializer) st.view none st.view [] := by
      rw [written]
      exact runs_pure none
    have ready := enclosed.ready
    rw [names] at ready
    obtain ⟨resolved, s, more, more', parts, isFirst, loops, same, turned, plain, shape⟩ :=
      resolve_while spelled parsed inward ready absent
    refine ⟨resolved, _, s, _, parts st rfl, ?_, turned, plain, shape, rfl, alike same⟩
    rw [isFirst]
    exact loops st rfl
  | some first =>
    have begun := parsed.initializer first written
    have present : Runs (resolveFirst (some first)) (st.view.push []) (some _) _ _ := (runs_stmt first begun _).map
    rw [← written] at present
    have ready : Ready ((st.view.push []).set (declaredNames first)).scopes := by
      have enters : namesOf (counted ((⟨[], .empty⟩ :: σ).map .scope)) = (st.view.push []).scopes := by
        rw [counted_scopes]
        exact congrArg (List.cons _) names
      rw [← names_behind (open_scopes _) enters, counted_behindIn (open_scopes _), counted_scopes]
      exact (Encloses.behind spelled begun (enclosed.push fun _ _ bound => by cases bound)).ready
    obtain ⟨resolved, s, more, more', parts, isFirst, loops, same, turned, plain, shape⟩ :=
      resolve_while spelled parsed inward ready present
    have statements : Runs (resolveStmts [first, .whileLoop (tested loop.condition) (turn loop.increment loop.body)])
        (st.view.push []) _ _ _ := (runs_stmt first begun _).bind (loops.bind (runs_pure []).map).map
    refine ⟨resolved, _, s, _, parts.inScope st rfl, ?_, turned, plain, shape, rfl, alike (reports_append rfl same)⟩
    rw [isFirst]
    exact (Runs.inScope (statements.of_eq (by simp))).map st rfl

/-- A `for` loop and the statement that it is read as mean the same. In any scopes around a statement the one is resolved
like the other, with the same reports. From any machine whose heap is in order, the one ends like the other and prints
the same, if a break that gets out of the increment ends the loop quietly; and so does whatever is run behind it. The
frames that were there before are the same frames with the same variables. Where a break would get out of the increment
and out of the loop, the statement ends quietly. If a turn is a block, all of this is for bodies in which no name of a
scope inside the body has a depth that leads out of it; for such names it does not hold. -/
theorem tree_keeps_meaning {source : Token → Prop} (spelled : Scope.Spelled source) {loop : ForLoop}
    (parsed : loop.Parsed source)
    (inward : loop.increment.isSome = true → Scope.AllInward (Scope.stmtMentions [] loop.body))
    {st : Scope.State} {σ : Scope.Regions} (names : Scope.namesOf σ = st.scopes.items)
    (enclosed : Scope.Encloses σ st.classBody) :
    ∃ resolved st₁ tree st₂, loop.resolve st = .ok resolved st₁ ∧ Scope.resolveStmt loop.tree st = .ok tree st₂ ∧
      st₁.scopes.items = st.scopes.items ∧ SameContext st₁ st₂ ∧ ∀ fuel,
        Strays (resolved.run (throw .broke) fuel) (resolved.run (pure ()) fuel) ∧
        ∀ m : Machine, m.LaidOut → ∃ p : Placement, (∀ id < m.frames.size, p.place id = id) ∧
          ∀ n rest, p.Results id Eq ((do resolved.run (pure ()) fuel; Eval.runAll (Eval.execute n) rest) m)
            ((do Eval.execute (fuel + 1) tree; Eval.runAll (Eval.execute n) rest) m) := by
  obtain ⟨resolved, st₁, s, st₂, ran, ran', turned, plain, shape, outer, same⟩ :=
    resolve_tree spelled parsed inward names enclosed
  refine ⟨resolved, st₁, _, st₂, ran, ran', outer, same, fun fuel => ⟨strays_run resolved fuel, ?_⟩⟩
  intro m laidOut
  obtain ⟨p, agrees, follows⟩ := trails_run plain shape turned fuel (Placement.machines_identity m) laidOut
  refine ⟨p, fun id inside => agrees.place id inside, fun n rest => ?_⟩
  refine follows.bind ?_
  rintro _ _ m₁ m₁' machines -
  exact Placement.follows_runAll (p.partsFollow_ofFuel n) machines (Stmt.allShifted_refl rest)

/-- The loop `for (var x = "a"; ; f()) print x;`. -/
def strayLoop : ForLoop where
  initializer := some (.var (.named "x") (some (.literal (.string "a"))))
  condition := none
  increment := some (.call (.var (.named "f") none) (.named "f") [])
  body := .print (.var (.named "x") none)

/-- The machine behind the declaration of a function `f` whose body is a break. -/
def strayMachine : Machine :=
  ((Machine.start {} {}).interpret 2 [.function ⟨.named "f", some [], [.breakLoop]⟩]).1

theorem spelled_stray : Scope.Spelled fun t => t = .named "x" ∨ t = .named "f" where
  names := by rintro t (rfl | rfl) _ <;> decide
  this_ := by rintro t (rfl | rfl) isThis <;> cases isThis
  super_ := by rintro t (rfl | rfl) isSuper <;> cases isSuper

theorem parsed_stray : strayLoop.Parsed fun t => t = .named "x" ∨ t = .named "f" where
  initializer := by
    rintro _ ⟨⟩
    exact ⟨⟨rfl, .inl rfl⟩, fun _ isValue => by cases isValue; trivial⟩
  condition := fun _ isValue => by cases isValue
  increment := by
    rintro _ ⟨⟩
    exact ⟨trivial, trivial⟩
  plain := rfl
  body := trivial

/-- The break in the increment would get out of the loop, but the statement ends quietly. -/
theorem stray_break_ends_for_loop :
    Scope.AllInward (Scope.stmtMentions [] strayLoop.body) ∧ strayMachine.LaidOut ∧
      ∃ resolved st₁ tree st₂, strayLoop.resolve (.start []) = .ok resolved st₁ ∧
        Scope.resolveStmt strayLoop.tree (.start []) = .ok tree st₂ ∧ SameContext st₁ st₂ ∧
        (Eval.catchBreak (resolved.run (throw .broke) 6)).run' strayMachine = some false ∧
        (Eval.catchBreak (Eval.execute 7 tree)).run' strayMachine = some true ∧
        ∃ p : Placement, ∀ n rest,
          p.Results id Eq ((do resolved.run (pure ()) 6; Eval.runAll (Eval.execute n) rest) strayMachine)
            ((do Eval.execute 7 tree; Eval.runAll (Eval.execute n) rest) strayMachine) := by
  have inward : Scope.AllInward (Scope.stmtMentions [] strayLoop.body) := Scope.allInward_top _
  have laidOut : strayMachine.LaidOut := Layout.laidOut_interpret _ 2 {} {}
  have outside : Scope.namesOf [] = (Scope.State.start []).scopes.items := rfl
  refine ⟨inward, laidOut, ?_⟩
  obtain ⟨resolved, st₁, tree, st₂, ran, ran', -, same, meaning⟩ :=
    tree_keeps_meaning spelled_stray parsed_stray (fun _ => inward) outside Scope.encloses_nil
  obtain ⟨p, -, alike⟩ := (meaning 6).2 strayMachine laidOut
  refine ⟨resolved, st₁, tree, st₂, ran, ran', same, ?_, ?_, p, alike⟩
  · cases ran
    decide +kernel
  · cases ran'
    decide +kernel

/-- The loop `for (var x = "a"; ; f()) { var x = "b"; class C { class m() { return x; } } print C.m(); break; }`. -/
def outwardLoop : ForLoop where
  initializer := strayLoop.initializer
  condition := none
  increment := strayLoop.increment
  body := .block [.var (.named "x") (some (.literal (.string "b"))),
    .classDef ⟨.named "C", none, [], [⟨.named "m", some [],
      [.returnValue (.named "return") (some (.var (.named "x") none))]⟩], []⟩,
    .print (.call (.get (.var (.named "C") none) (.named "m")) (.named "m") []), .breakLoop]

/-- The class method reads the variable behind the one of the body. In the loop that is the one of the initializer, in the
statement there is none in the frame of the turn. -/
theorem outward_name_tells_turn :
    ¬ Scope.AllInward (Scope.stmtMentions [] outwardLoop.body) ∧
      ∃ resolved st₁ tree st₂, outwardLoop.resolve (.start []) = .ok resolved st₁ ∧
        Scope.resolveStmt outwardLoop.tree (.start []) = .ok tree st₂ ∧
        ((resolved.run (pure ()) 9).after (.start {} {})).printed = #["a"] ∧
        ((execute 10 tree).after (.start {} {})).printed = #[] := by
  refine ⟨?_, _, _, _, _, rfl, rfl, ?_, ?_⟩
  · intro inward
    exact absurd (inward _ List.mem_cons_self rfl _ rfl) (by decide)
  · decide +kernel
  · decide +kernel

end ForLoop

end LoxLang
