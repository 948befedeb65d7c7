import LoxLang.Proofs.AcceptedRuns
import LoxLang.Proofs.Activations
import LoxLang.Proofs.StaticDepths

/-!
Names that are looked up in the methods of classes themselves. Around such a method the scope of `this` is counted twice
when the depths are found, but it is entered once. So a lookup in the method finds `this`, the parameters and all that
the body declares, but it goes one frame too far, for each such method on the way, if the name is declared outside.
-/

namespace LoxLang

open Scope (Levels Mention entered surplus declaringIn exprMentions stmtMentions stmtsMentions placed refMention)

/-- The names that a node mentions, and all that is written inside it, if it stands in some scopes. -/
def Point.mentions (σ : Levels) : Point → List (Levels × Mention)
  | .eval e => placed σ (exprMentions e)
  | .exec s => stmtMentions σ s

/-- A name that is kept with a depth is bound in the frame of the nearest scope that declares it. -/
def Machine.BoundNear (m : Machine) (σ : Levels) (depth : Nat) (name : String) : Prop :=
  ∃ e id, Displaced σ m.scope name depth e id ∧ (m.frame id).contains name = true

section
variable (program : List Stmt) (fuel : Nat) (start : Machine)

/-- Where the names are that a node looks up by itself, and how far from there the depths lead that are kept with
them. -/
def Aims (σ : Levels) (v : Visit) : Prop :=
  match v.point with
  | .eval (.var name (some d)) | .eval (.this name (some d)) => v.machine.BoundNear σ d name.lexeme
  | .eval (.super keyword _ depth) =>
    ∃ d e base object, depth = some (d + 1) ∧ Displaced σ v.machine.scope keyword.lexeme (d + 1) (e + 1) base ∧
      (v.machine.frame base).contains superName = true ∧ v.machine.scope[e]? = some object ∧
      (v.machine.frame object).contains thisName = true
  | .eval (.assign name value (some d)) =>
    ∃ e region id, Displaced σ v.machine.scope name.lexeme d e id ∧ (entered σ)[e]? = some region ∧
      MadeFor program fuel start id region.body (v.machine.scope.drop (e + 1)) ∧
      ∀ n result m, Eval.evaluate n value v.machine = .ok result m → m.scope = v.machine.scope
  | .exec (.classDef decl) =>
    ∀ ref d, decl.superclass = some ref → ref.depth = some d → v.machine.BoundNear σ d ref.name.lexeme
  | .exec (.traitDef decl) =>
    ∀ ref ∈ decl.traits, ∀ d m, ref.depth = some d → Eval.define decl.name.lexeme .nil v.machine = .ok () m →
      m.BoundNear (declaringIn decl.name.lexeme true σ) d ref.name.lexeme
  | _ => True

end

namespace Run

variable {r : Run} {m : Machine}

theorem aims_expr {n : Nat} {e : Expr} {σ : Levels} (code : r.OfExpr σ e) (lockstep : r.Lockstep m σ m.scope) :
    Aims r.program r.fuel r.start σ ⟨n, .eval e, m⟩ := by
  obtain ⟨mentions, parsed⟩ := code
  cases e with
  | var name depth | this name depth =>
    cases depth with
    | none => exact trivial
    | some => exact read_found lockstep (mentions List.mem_cons_self) rfl rfl
  | super => exact super_found lockstep (mentions List.mem_cons_self)
  | assign _ value depth =>
    cases depth with
    | none => exact trivial
    | some =>
      simp only [exprMentions, Scope.placed_append, List.append_subset] at mentions
      obtain ⟨e, region, id, displaced, there, made⟩ :=
        assign_made lockstep parsed.1 (mentions.2 List.mem_cons_self)
      exact ⟨e, region, id, displaced, there, made, fun k result m' ends => (Eval.keeps_scope_evaluate k value).of_ok ends⟩
  | binary | logical | unary | conditional | grouping | literal | call | get | set | missing => exact trivial

theorem aims_stmt {n : Nat} {s : Stmt} {σ : Levels} (ok : r.MachineOk m) (code : r.OfStmt σ s)
    (lockstep : r.Lockstep m σ m.scope) : Aims r.program r.fuel r.start σ ⟨n, .exec s, m⟩ := by
  cases s with
  | classDef =>
    intro ref d isBase kept
    exact read_found lockstep (superclass_mentioned code isBase) rfl kept
  | traitDef =>
    rintro ref member d m₁ kept defined
    obtain ⟨lockstep', place⟩ := trait_declared ok code lockstep member defined
    exact read_found lockstep' place rfl kept
  | expression | print | var | block | ifElse | whileLoop | breakLoop | returnValue | function | missing =>
    exact trivial

theorem aims_of_reaches {v : Visit} (reached : r.Reaches v) :
    ∃ σ, v.point.mentions σ ⊆ r.mentions ∧ MadeForAll r.program r.fuel r.start (entered σ) v.machine ∧
      Aims r.program r.fuel r.start σ v := by
  obtain ⟨n, point, m⟩ := v
  obtain ⟨ok, fits⟩ := good_of_reaches reached
  cases point with
  | eval =>
    obtain ⟨σ, code, lockstep⟩ := fits
    exact ⟨σ, code.mentions, lockstep.madeForAll, aims_expr code lockstep⟩
  | exec =>
    obtain ⟨σ, code, lockstep⟩ := fits
    exact ⟨σ, code.mentions, lockstep.madeForAll, aims_stmt ok code lockstep⟩

end Run

/-- The run of an accepted program that mentions no name across a method of a class itself. -/
def Run.ofNear {source : String} {program : List Stmt} (accepted : Accepted source program)
    (near : ∀ place ∈ stmtsMentions [] program, place.2.isIncluded = false → place.2.Near place.1) (fuel : Nat)
    (clock dice : Readings) : Run :=
  let r := Run.ofAccepted accepted fuel clock dice
  { r with
    exact := true
    straight := fun _ place member => (r.settled place member).straight (near place member) }

/-- Depths in the methods of classes themselves. Whenever a node of an accepted program is run, the frames in sight are
those of the scopes around it, and each name that it looks up at a depth is in the frame of the nearest scope that
declares it. The depth leads to this frame exactly if no method of a class itself lies in between, and further out
otherwise, by one frame for each such method. So if no name is mentioned across a method of a class itself, all lookups
find what they look for, and the run does not end because of one. -/
theorem depths_exceed_by_class_methods {source : String} {program : List Stmt} (accepted : Accepted source program)
    (fuel : Nat) (clock dice : Readings) :
    (∀ v, Reached program fuel (Machine.start clock dice) v →
        ∃ σ, v.point.mentions σ ⊆ stmtsMentions [] program ∧
          MadeForAll program fuel (Machine.start clock dice) (entered σ) v.machine ∧
          Aims program fuel (Machine.start clock dice) σ v) ∧
      ((∀ place ∈ stmtsMentions [] program, place.2.isIncluded = false → place.2.Near place.1) →
        (∀ v, Reached program fuel (Machine.start clock dice) v → Grounded program fuel (Machine.start clock dice) v) ∧
        ∀ fault, ((Machine.start clock dice).interpret fuel program).2 = some (.crashed fault) →
          fault ≠ .scopeTooDeep ∧ fault ≠ .unresolvedSuper) := by
  refine ⟨fun v reached => Run.aims_of_reaches (r := .ofAccepted accepted fuel clock dice) reached, fun near => ?_⟩
  exact (Run.ofNear accepted near fuel clock dice).grounded rfl

/-! A method of a class itself that reads a variable of the block in which the class is declared. -/

def outwardSource : String := "\x7bvar x=true;class C\x7bclass m()\x7breturn x;\x7d\x7dC.m();\x7d"

def outwardVariable : Stmt := .var (.named "x") (some (.literal (.bool true)))

/-- The statement of the method, for a depth that is kept with the variable. -/
def outwardReturn (depth : Option Nat) : Stmt :=
  .returnValue ⟨.kwReturn, "return", .nil, 1⟩ (some (.var (.named "x") depth))

def outwardMethod (depth : Option Nat) : FunDecl := ⟨.named "m", some [], [outwardReturn depth]⟩

def outwardClass (depth : Option Nat) : Stmt :=
  .classDef ⟨.named "C", none, [], [outwardMethod depth], []⟩

/-- The method, for a depth that is kept with the class. -/
def outwardCallee (depth : Option Nat) : Expr :=
  .get (.var (.named "C") depth) (.named "m")

def outwardCall (depth : Option Nat) : Expr := .call (outwardCallee depth) ⟨.rightParen, ")", .nil, 1⟩ []

def outwardBlock (variable_ class_ : Option Nat) : Stmt :=
  .block [outwardVariable, outwardClass variable_, .expression (outwardCall class_)]

def outwardProgram : List Stmt := [outwardBlock (some 3) (some 0)]

theorem accepted_outward : Accepted outwardSource outwardProgram :=
  .of_steps rfl rfl rfl (Grammar.derives_statements .oneLine [outwardBlock none none] rfl) rfl rfl

/-- The machine in the block, after the declarations. -/
def outwardMachine : Machine :=
  (Eval.runAll (Eval.execute 4) [outwardVariable, outwardClass (some 3)]).after
    { Machine.start {} {} with frames := (Machine.start {} {}).frames.push .empty, scope := [1, 0] }

/-- The call of the method, which has been bound to its class. -/
def outwardCalled : Call where
  fuel := 2
  function := ⟨1, outwardMethod (some 3), [2, 1, 0], false⟩
  args := []
  machine := (Eval.evaluate 2 (outwardCallee (some 0))).after outwardMachine

def outwardRead : Visit := ⟨1, .eval (.var (.named "x") (some 3)), outwardCalled.entry⟩

theorem reached_outwardRead : Reached outwardProgram 5 (.start {} {}) outwardRead := by
  have split : outwardProgram = [] ++ outwardBlock (some 3) (some 0) :: [] := rfl
  have block : Reached outwardProgram 5 (.start {} {}) ⟨5, .exec (outwardBlock (some 3) (some 0)), .start {} {}⟩ :=
    .statement split rfl
  have statement : Reached outwardProgram 5 (.start {} {}) ⟨4, .exec (.expression (outwardCall (some 0))), outwardMachine⟩ :=
    block.inner ⟨rfl, Eval.sees_block [outwardVariable, outwardClass (some 3)] [] rfl rfl⟩
  have call := statement.inner Visit.enters_expression
  have made : Visit.Calls ⟨3, .eval (outwardCall (some 0)), outwardMachine⟩ outwardCalled := .function rfl rfl rfl
  have body : Reached outwardProgram 5 (.start {} {}) ⟨2, .exec (outwardReturn (some 3)), outwardCalled.entry⟩ :=
    call.inner (made.enters ⟨rfl, [], outwardReturn (some 3), [], rfl, rfl, rfl⟩)
  exact body.inner Visit.enters_return

/-- The variable is two frames out, but it is looked up three frames out, where it is not. -/
theorem depths_exceed_outward :
    Accepted outwardSource outwardProgram ∧
      Reached outwardProgram 5 (.start {} {}) outwardRead ∧
      (∃ σ, outwardRead.point.mentions σ ⊆ stmtsMentions [] outwardProgram ∧
        MadeForAll outwardProgram 5 (.start {} {}) (entered σ) outwardRead.machine ∧
        Aims outwardProgram 5 (.start {} {}) σ outwardRead) ∧
      outwardRead.machine.Bound 2 "x" ∧ ¬ outwardRead.machine.Bound 3 "x" := by
  refine ⟨accepted_outward, reached_outwardRead,
    (depths_exceed_by_class_methods accepted_outward 5 {} {}).1 _ reached_outwardRead, ⟨1, rfl, rfl⟩, ?_⟩
  rintro ⟨id, isGlobal, bound⟩
  obtain rfl : 0 = id := Option.some.inj isGlobal
  exact nomatch bound

end LoxLang
