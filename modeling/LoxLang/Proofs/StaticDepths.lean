import LoxLang.Proofs.LockstepRuns
import LoxLang.Proofs.Spelling

/-!
The depths that are found before a program runs are right while it runs. Whenever a name, `this` or `super` is looked up
at a depth, the frame at that depth is there and has the name; whenever a name is assigned to, the frame at that depth
is the one that was made for the scope that declares it.
-/

namespace LoxLang

open Eval

variable {σ : Levels}

open Scope (Region Regions Levels Lookup Mention namesOf entered exprLookups stmtLookups stmtsLookups stmtMentions placed
  refMention)

/-- The frame a number of steps out is there and has the name. -/
def Machine.Bound (m : Machine) (depth : Nat) (name : String) : Prop :=
  ∃ id, m.scope[depth]? = some id ∧ (m.frame id).contains name = true

/-- An initializer finds its object in the innermost of its frames. -/
def Closure.FindsObject (f : Closure) (m : Machine) : Prop :=
  f.isInitializer = true → ∃ id outer, f.frames = id :: outer ∧ (m.frame id).contains thisName = true

/-- The lookups of a node and of all that is written inside it, if it stands in some scopes. -/
def Point.lookups (σ : Regions) : Point → List (Regions × Lookup)
  | .eval e => exprLookups σ e
  | .exec s => stmtLookups σ s

section
variable (program : List Stmt) (fuel : Nat) (start : Machine)

/-- The frames in sight are those made for the scopes, from the innermost on, and the global one. The scopes of `this`
and `super` have no statements of their own. -/
structure MadeForAll (σ : Regions) (m : Machine) : Prop where
  global : m.scope.drop σ.length = globalFrames
  made : ∀ d region, σ[d]? = some region → region.body ≠ [] →
    ∃ id, m.scope[d]? = some id ∧ MadeFor program fuel start id region.body (m.scope.drop (d + 1))

/-- All lookups that a node does by itself find what they look for. -/
def Finds (σ : Regions) (v : Visit) : Prop :=
  match v.point with
  | .eval (.var name (some d)) | .eval (.this name (some d)) => v.machine.Bound d name.lexeme
  | .eval (.super _ _ depth) =>
    ∃ d, depth = some (d + 1) ∧ v.machine.Bound (d + 1) superName ∧ v.machine.Bound d thisName
  | .eval (.assign name value (some d)) =>
    ∃ region id, Scope.depthOf? (namesOf σ) name.lexeme = some d ∧ σ[d]? = some region ∧
      MadeFor program fuel start id region.body (v.machine.scope.drop (d + 1)) ∧
      ∀ n result m, evaluate n value v.machine = .ok result m → m.scope[d]? = some id
  | .eval (.call callee _ _) =>
    ∀ n f m, v.fuel = n + 1 → evaluate n callee v.machine = .ok (.function f) m → f.FindsObject m
  | .eval (.get object name) =>
    ∀ n value m f m', v.fuel = n + 1 → evaluate n object v.machine = .ok value m →
      readProperty value name m = .ok (.function f) m' → f.FindsObject m'
  | .exec (.classDef decl) =>
    ∀ ref d, decl.superclass = some ref → ref.depth = some d → v.machine.Bound d ref.name.lexeme
  | .exec (.traitDef decl) =>
    ∀ ref ∈ decl.traits, ∀ d m, ref.depth = some d → define decl.name.lexeme .nil v.machine = .ok () m →
      m.Bound d ref.name.lexeme
  | _ => True

/-- A node that is run stands in some scopes of the program, the frames in sight are those of these scopes, and all
lookups of the node find what they look for. -/
def Grounded (v : Visit) : Prop :=
  ∃ σ, v.point.lookups σ ⊆ stmtsLookups [] program ∧ MadeForAll program fuel start σ v.machine ∧
    Finds program fuel start σ v

end

namespace Run

variable {r : Run} {m : Machine}

theorem Lockstep.madeForAll (lockstep : r.Lockstep m σ m.scope) :
    MadeForAll r.program r.fuel r.start (entered σ) m := by
  refine ⟨?_, fun d region place nonempty => ?_⟩
  · have global : ∀ (σ : Levels) (chain : Frames), r.Lockstep m σ chain →
        chain.drop (entered σ).length = globalFrames := by
      intro σ
      induction σ with
      | nil => exact fun chain lockstep => lockstep.1
      | cons _ _ ih =>
        intro chain lockstep
        cases chain with
        | nil => exact absurd lockstep id
        | cons _ chain => exact ih chain lockstep.2
    exact global σ m.scope lockstep
  · obtain ⟨id, here, frame⟩ := lockstep.frameOf place
    exact ⟨id, here, frame.made.resolve_right fun empty => nonempty empty.1⟩

/-- A name that is assigned to is declared by a scope with statements, since it is neither `this` nor `super`. -/
theorem assign_made {chain : Frames} (lockstep : r.Lockstep m σ chain) {name : Token} (isName : name.Names r.source)
    {d : Nat} (place : (σ, Mention.mk .assign name (some d) false) ∈ r.mentions) :
    ∃ e region id, Displaced σ chain name.lexeme d e id ∧ (entered σ)[e]? = some region ∧
      MadeFor r.program r.fuel r.start id region.body (chain.drop (e + 1)) := by
  obtain ⟨e, region, id, displaced, there, declared, frame⟩ := mention_found lockstep place rfl
  refine ⟨e, region, id, displaced, there, frame.made.resolve_right fun special => ?_⟩
  have noKeyword := r.spelled.names name isName.2 isName.1
  obtain ⟨isSet, bound⟩ := Option.isSome_iff_exists.mp declared
  exact (special.2 name.lexeme isSet bound).elim noKeyword.1 noKeyword.2

/-- In an exact run a name that is read is bound in the frame at the depth kept with it. -/
theorem bound_of_read (isExact : r.exact = true) (lockstep : r.Lockstep m σ m.scope) {mention : Mention}
    (place : (σ, mention) ∈ r.mentions) (isRead : mention.lookup = .read mention.name mention.depth) {d : Nat}
    (kept : mention.depth = some d) : m.Bound d mention.name.lexeme := by
  obtain ⟨e, id, displaced, bound⟩ := read_found lockstep place isRead kept
  rw [displaced.eq_of_straight (r.straight isExact _ place) kept]
  exact ⟨id, displaced.here, bound⟩

theorem finds_expr (isExact : r.exact = true) {n : Nat} {e : Expr} (reached : r.Reaches ⟨n, .eval e, m⟩)
    (code : r.OfExpr σ e) (lockstep : r.Lockstep m σ m.scope) :
    Finds r.program r.fuel r.start (entered σ) ⟨n, .eval e, m⟩ := by
  obtain ⟨mentions, parsed⟩ := code
  cases e with
  | var name depth | this name depth =>
    cases depth with
    | none => exact trivial
    | some => exact bound_of_read isExact lockstep (mentions List.mem_cons_self) rfl rfl
  | super keyword _ depth =>
    have place : (σ, ⟨.super, keyword, depth, false⟩) ∈ r.mentions := mentions List.mem_cons_self
    obtain ⟨d, e, base, object, rfl, displaced, bound, here, bound'⟩ := super_found lockstep place
    obtain rfl : d = e := Nat.succ.inj (displaced.eq_of_straight (r.straight isExact _ place) rfl)
    exact ⟨d, rfl, ⟨base, displaced.here, bound⟩, object, here, bound'⟩
  | assign _ value depth =>
    cases depth with
    | none => exact trivial
    | some d =>
      simp only [Scope.exprMentions, Scope.placed_append, List.append_subset] at mentions
      have place := mentions.2 List.mem_cons_self
      obtain ⟨e, region, id, displaced, there, made⟩ := assign_made lockstep parsed.1 place
      obtain rfl : d = e := displaced.eq_of_straight (r.straight isExact _ place) rfl
      refine ⟨region, id, displaced.nearest, there, made, fun k result m' ends => ?_⟩
      -- Evaluating the value leaves the frames in sight as they were.
      have same : m'.scope = m.scope := (keeps_scope_evaluate k value).of_ok ends
      rw [same]
      exact displaced.here
  | call =>
    rintro k f m' rfl ends
    exact (first_ok (fun _ => rfl) reached ends).2.2
  | get _ name =>
    rintro k value m₁ f m₂ rfl ends read
    obtain ⟨ok, fine⟩ := first_ok (fun _ => rfl) reached ends
    exact ((quiet_readProperty ok fine name).of_ok read).2.2
  | binary | logical | unary | conditional | grouping | literal | set | missing => exact trivial

/-- The class that is extended is looked up where the class is declared. -/
theorem superclass_mentioned {decl : ClassDecl} (code : r.OfStmt σ (.classDef decl)) {ref : NameRef}
    (isBase : decl.superclass = some ref) : (σ, refMention false ref) ∈ r.mentions := by
  obtain ⟨name, base, methods, own, traits⟩ := decl
  obtain rfl : base = some ref := isBase
  have mentions := code.mentions
  simp only [stmtMentions, List.append_subset] at mentions
  exact mentions.1.1.1 (by simp [placed])

/-- The traits that a trait includes are looked up where its name is declared. -/
theorem trait_declared {decl : TraitDecl} (ok : r.MachineOk m) (code : r.OfStmt σ (.traitDef decl))
    (lockstep : r.Lockstep m σ m.scope) {ref : NameRef} (member : ref ∈ decl.traits) {m₁ : Machine}
    (defined : define decl.name.lexeme .nil m = .ok () m₁) :
    r.Lockstep m₁ (Scope.declaringIn decl.name.lexeme true σ) m₁.scope ∧
      (Scope.declaringIn decl.name.lexeme true σ, refMention false ref) ∈ r.mentions := by
  obtain ⟨name, traits, methods⟩ := decl
  have mentions := code.mentions
  simp only [stmtMentions, List.append_subset] at mentions
  have nil (m' : Machine) : r.ValueOk m' .nil := trivial
  obtain ⟨follows, bound⟩ := (quiet_define ok lockstep name.lexeme fun m' _ _ _ => nil m').of_ok defined
  exact ⟨follows.declaring bound lockstep code.place, mentions.1 (List.mem_map_of_mem (List.mem_map_of_mem member))⟩

theorem finds_stmt (isExact : r.exact = true) {n : Nat} {s : Stmt} (reached : r.Reaches ⟨n, .exec s, m⟩)
    (code : r.OfStmt σ s) (lockstep : r.Lockstep m σ m.scope) :
    Finds r.program r.fuel r.start (entered σ) ⟨n, .exec s, m⟩ := by
  have ok : r.MachineOk m := (good_of_reaches reached).1
  cases s with
  | classDef =>
    intro ref d isBase kept
    exact bound_of_read isExact lockstep (superclass_mentioned code isBase) rfl kept
  | traitDef =>
    rintro ref member d m₁ kept defined
    obtain ⟨lockstep', place⟩ := trait_declared ok code lockstep member defined
    exact bound_of_read isExact lockstep' place rfl kept
  | expression | print | var | block | ifElse | whileLoop | breakLoop | returnValue | function | missing =>
    exact trivial

theorem grounded_of_reaches {v : Visit} (reached : r.Reaches v) (isExact : r.exact = true) :
    Grounded r.program r.fuel r.start v := by
  obtain ⟨n, point, m⟩ := v
  obtain ⟨ok, fits⟩ := good_of_reaches reached
  have ofProgram : Scope.looked r.mentions ⊆ stmtsLookups [] r.program :=
    (Scope.perm_stmtsLookups r.program Scope.open_nil).symm.subset
  cases point with
  | eval e =>
    obtain ⟨σ, code, lockstep⟩ := fits
    have lookups : exprLookups (entered σ) e ⊆ stmtsLookups [] r.program := fun place member =>
      ofProgram (Scope.looked_subset code.mentions ((Scope.perm_exprLookups σ e).subset member))
    exact ⟨entered σ, lookups, lockstep.madeForAll, finds_expr isExact reached code lockstep⟩
  | exec s =>
    obtain ⟨σ, code, lockstep⟩ := fits
    have lookups : stmtLookups (entered σ) s ⊆ stmtsLookups [] r.program := fun place member =>
      ofProgram (Scope.looked_subset code.mentions ((Scope.perm_stmtLookups s code.place.isOpen).subset member))
    exact ⟨entered σ, lookups, lockstep.madeForAll, finds_stmt isExact reached code lockstep⟩

end Run

theorem Machine.error_of_interpret {m : Machine} {fuel : Nat} {program : List Stmt} {fault : Fault}
    (ended : (m.interpret fuel program).2 = some (.crashed fault)) :
    ∃ m', runAll (execute fuel) program m = .error (.crashed fault) m' :=
  (Machine.interpret_ending_iff.mp ended).2

/-- In an exact run every node that is run is grounded, and the run does not end because of a lookup. -/
theorem Run.grounded (r : Run) (isExact : r.exact = true) :
    (∀ v, r.Reaches v → Grounded r.program r.fuel r.start v) ∧
      ∀ fault, (r.start.interpret r.fuel r.program).2 = some (.crashed fault) →
        fault ≠ .scopeTooDeep ∧ fault ≠ .unresolvedSuper := by
  refine ⟨fun v reached => grounded_of_reaches reached isExact, fun fault ended => ?_⟩
  obtain ⟨m, crashed⟩ := Machine.error_of_interpret ended
  have harmless : r.excludes fault = false := (sound_program.of_error crashed).2.2
  rw [excludes, isExact] at harmless
  constructor
  · rintro rfl
    cases harmless
  · rintro rfl
    cases harmless

/-- The run of a program that is accepted. -/
def Run.ofSource {source : String} {program resolved : List Stmt} {found : Scope.State}
    (read : (parseProgram (scan source).tokens).result = .ok program)
    (accepted : (Scope.resolveStmts program).run (.start []) = .ok resolved found) (clean : found.errors = #[])
    (simple : Stmt.AllNoClassMethods program) (fuel : Nat) (clock dice : Readings) : Run :=
  have all : Scope.ProgramResolved (· ∈ (scan source).tokens) program resolved found :=
    Scope.resolved_program (Grammar.parsed_of_parseProgram read) accepted
  { source := (· ∈ (scan source).tokens), program := resolved, fuel, clock, dice
    spelled := spelled_tokens source
    parsed := all.parsed
    settled := all.settles (spelled_tokens source) clean
    exact := true
    straight := fun _ place member => by
      have settled := all.settles (spelled_tokens source) clean place member
      have once : Scope.surplus place.1 = 0 := Scope.allIn_stmtsMentions resolved (all.simple simple) rfl place member
      exact settled.straight fun _ e _ => Scope.surplus_take once e }

/-- Static depths agree with the frames of a run: for a source without class methods that is read and resolved without a
report, every node that is run, from the start and in any number of layers, is grounded, and the run does not end
because of a lookup. -/
theorem static_depths_grounded {source : String} {program resolved : List Stmt} {found : Scope.State}
    (read : (parseProgram (scan source).tokens).result = .ok program)
    (accepted : (Scope.resolveStmts program).run (.start []) = .ok resolved found) (clean : found.errors = #[])
    (simple : Stmt.AllNoClassMethods program) (fuel : Nat) (clock dice : Readings) :
    (∀ v, Reached resolved fuel (Machine.start clock dice) v →
        Grounded resolved fuel (Machine.start clock dice) v) ∧
      ∀ fault, ((Machine.start clock dice).interpret fuel resolved).2 = some (.crashed fault) →
        fault ≠ .scopeTooDeep ∧ fault ≠ .unresolvedSuper := by
  exact (Run.ofSource read accepted clean simple fuel clock dice).grounded rfl

def assigningSource : String := "\x7bvar a;a=a;\x7d"

def assigningTokens : List Token :=
  let name : Token := .named "a"
  [⟨.leftBrace, "\x7b", .nil, 1⟩, ⟨.kwVar, "var", .nil, 1⟩, name, ⟨.semicolon, ";", .nil, 1⟩, name,
   ⟨.equal, "=", .nil, 1⟩, name, ⟨.semicolon, ";", .nil, 1⟩, ⟨.rightBrace, "\x7d", .nil, 1⟩, ⟨.endOfFile, "", .nil, 1⟩]

theorem tokens_assigning : (scan assigningSource).tokens = assigningTokens := by
  rw [← scanSteps_eq]
  rfl

def declaration : Stmt := .var (.named "a") (some (.literal .nil))

def assignment (depth : Option Nat) : Expr :=
  .assign (.named "a") (.var (.named "a") depth) depth

def assigningProgram (depth : Option Nat) : List Stmt := [.block [declaration, .expression (assignment depth)]]

def assigningMachine (inner : Bindings Value) (scope : Frames) : Machine :=
  { Machine.start {} {} with frames := (Machine.start {} {}).frames.push inner, scope := scope }

theorem Visit.crash_of_ne {w : Visit} {point : Point} (different : point ≠ w.point) (fault : Fault) (m : Machine) :
    w.crash fault point m = none := if_neg fun same => different same.1

theorem enters_assignment :
    Visit.Enters ⟨3, .exec (.block [declaration, .expression (assignment (some 0))]), Machine.start {} {}⟩
      ⟨2, .exec (.expression (assignment (some 0))), assigningMachine (Bindings.empty.put "a" .nil) [1, 0]⟩ := by
  let w : Visit := ⟨2, .exec (.expression (assignment (some 0))), assigningMachine (Bindings.empty.put "a" .nil) [1, 0]⟩
  refine ⟨rfl, fun fault => ⟨{ w.machine with scope := [0] }, ?_⟩⟩
  let parts := (Parts.ofFuel 2).crashing (w.crash fault)
  have declared : parts.exec declaration (assigningMachine .empty [1, 0]) = .ok () w.machine := by
    have different : Point.exec declaration ≠ w.point := fun same => nomatch same
    have quiet := Visit.crash_of_ne different fault (assigningMachine .empty [1, 0])
    simp only [parts, Parts.crashing, quiet]
    rfl
  have crashed : parts.exec (.expression (assignment (some 0))) w.machine = .error (.crashed fault) w.machine := by
    have loud : w.crash fault (.exec (.expression (assignment (some 0)))) w.machine = some fault := if_pos ⟨rfl, rfl⟩
    simp only [parts, Parts.crashing, loud]
  have body : runAll parts.exec [declaration, .expression (assignment (some 0))] (assigningMachine .empty [1, 0]) =
      .error (.crashed fault) w.machine := (bind_of_ok declared).trans (bind_of_error crashed)
  show within [1, 0] (runAll parts.exec [declaration, .expression (assignment (some 0))])
    (assigningMachine .empty [0]) = _
  simp only [within, assigningMachine] at body ⊢
  rw [body]

theorem reached_assignment : Reached (assigningProgram (some 0)) 3 (Machine.start {} {})
    ⟨1, .eval (assignment (some 0)), assigningMachine (Bindings.empty.put "a" .nil) [1, 0]⟩ := by
  have split : assigningProgram (some 0) = [] ++ .block [declaration, .expression (assignment (some 0))] :: [] := rfl
  have block : Reached (assigningProgram (some 0)) 3 (Machine.start {} {}) _ := .statement split rfl
  refine (block.inner enters_assignment).inner
    ⟨rfl, fun fault => ⟨assigningMachine (Bindings.empty.put "a" .nil) [1, 0], ?_⟩⟩
  simp [Point.layer, execStep, Parts.crashing, Visit.crash, EStateM.map, discard, Functor.discard, Functor.mapConst]

/-- The variable is found in the frame of the block. -/
theorem static_depths_grounded_assignment :
    (parseProgram (scan assigningSource).tokens).result = .ok (assigningProgram none) ∧
      Stmt.AllNoClassMethods (assigningProgram none) ∧
      (∃ found, (Scope.resolveStmts (assigningProgram none)).run (.start []) =
        .ok (assigningProgram (some 0)) found ∧ found.errors = #[]) ∧
      Grounded (assigningProgram (some 0)) 3 (Machine.start {} {})
        ⟨1, .eval (assignment (some 0)), assigningMachine (Bindings.empty.put "a" .nil) [1, 0]⟩ := by
  have read : (parseProgram (scan assigningSource).tokens).result = .ok (assigningProgram none) := by
    rw [tokens_assigning]
    rfl
  have simple : Stmt.AllNoClassMethods (assigningProgram none) := ⟨⟨trivial, trivial, trivial⟩, trivial⟩
  exact ⟨read, simple, ⟨_, rfl, rfl⟩, (static_depths_grounded read rfl rfl simple 3 {} {}).1 _ reached_assignment⟩

end LoxLang
