import LoxLang.Proofs.RelinedMachine
import LoxLang.Proofs.SimulatedDeclarations

/-!
Running programs on other lines. A program on other lines, run on the machine with all declarations on other lines, does
what the program does. The depths of names may also be kept in a table that is looked up whenever a name is met: then what
stands for a depth in the program may be replaced together with the table.
-/

namespace LoxLang

open Change Simulation

/-- Computations on other lines. -/
def relining (g : Relining) : Change Ending Machine where
  state := Machine.reline g
  ending := Ending.reline g

variable {g : Relining} {α β α' β' : Type} {value : α → α'} {other : β → β'}

@[simp]
theorem state_relining (m : Machine) : (relining g).state m = m.reline g := rfl

namespace Eval

theorem mirrors_fail (token : Token) (cause : Cause) :
    (relining g).Mirrors value (fail token cause) (fail (token.reline g) cause) := mirrors_throw rfl

theorem mirrors_crash (fault : Fault) : (relining g).Mirrors value (crash fault) (crash fault) := mirrors_throw rfl

/-! ### The elementary steps -/

theorem mirrors_newFrame (bindings : Bindings Value) :
    (relining g).Mirrors id (newFrame bindings) (newFrame (bindings.map (Value.reline g))) := by
  intro m
  simp [newFrame, relining, Machine.reline, result]

theorem mirrors_freshId : (relining g).Mirrors id freshId freshId := fun _ => rfl

theorem mirrors_newObject : (relining g).Mirrors id newObject newObject := by
  intro m
  simp [newObject, relining, Machine.reline, result]

theorem mirrors_scope : (relining g).Mirrors id scope scope := fun _ => rfl

theorem mirrors_setScope (chain : Frames) : (relining g).Mirrors id (setScope chain) (setScope chain) :=
  mirrors_modify fun _ => rfl

theorem mirrors_within (chain : Frames) {x : Eval α} {y : Eval α'} (body : (relining g).Mirrors value x y) :
    (relining g).Mirrors value (within chain x) (within chain y) := by
  intro m
  have inner := body { m with scope := chain }
  simp only [within]
  rw [show ({ (relining g).state m with scope := chain } : Machine) =
    (relining g).state { m with scope := chain } from rfl, inner]
  cases x { m with scope := chain } <;> rfl

theorem mirrors_bind (frame : FrameId) (name : String) (v : Value) :
    (relining g).Mirrors id (modify (·.bind frame name v)) (modify (·.bind frame name (v.reline g))) :=
  mirrors_modify fun m => (Machine.reline_bind m frame name v).symm

theorem mirrors_define (name : String) (v : Value) :
    (relining g).Mirrors id (define name v) (define name (v.reline g)) := by
  refine .bind mirrors_scope fun chain => ?_
  cases chain with
  | nil => exact mirrors_pure rfl
  | cons inner => exact mirrors_bind inner name v

theorem mirrors_ancestor (chain : Frames) (depth : Nat) :
    (relining g).Mirrors id (ancestor chain depth) (ancestor chain depth) := by
  unfold ancestor
  cases chain[depth]? with
  | none => exact mirrors_crash _
  | some => exact mirrors_pure rfl

theorem mirrors_getAt (chain : Frames) (depth : Nat) (name : String) :
    (relining g).Mirrors (Value.reline g) (getAt chain depth name) (getAt chain depth name) := by
  refine .bind (mirrors_ancestor chain depth) fun frame => .bind mirrors_get fun m => mirrors_pure ?_
  simp only [id_eq, state_relining, Machine.frame_reline, Bindings.get?_map]
  cases (m.frame frame).get? name <;> rfl

theorem mirrors_assignAt (chain : Frames) (depth : Nat) (name : String) (v : Value) :
    (relining g).Mirrors id (assignAt chain depth name v) (assignAt chain depth name (v.reline g)) :=
  .bind (mirrors_ancestor chain depth) fun frame => mirrors_bind frame name v

theorem mirrors_getNamed (chain : Frames) (name : Token) :
    (relining g).Mirrors (Value.reline g) (getNamed chain name) (getNamed chain (name.reline g)) := by
  refine .bind mirrors_get fun m => ?_
  simp only [state_relining, Machine.lookup?_reline, Token.lexeme_reline]
  cases m.lookup? chain name.lexeme with
  | none => exact mirrors_fail name _
  | some => exact mirrors_pure rfl

theorem mirrors_assignNamed (chain : Frames) (name : Token) (v : Value) :
    (relining g).Mirrors id (assignNamed chain name v) (assignNamed chain (name.reline g) (v.reline g)) := by
  refine .bind mirrors_get fun m => ?_
  simp only [state_relining, Machine.findFrame?_reline, Token.lexeme_reline]
  cases m.findFrame? chain name.lexeme with
  | none => exact mirrors_fail name _
  | some frame => exact mirrors_bind frame name.lexeme v

/-! ### Functions and declarations -/

theorem mirrors_makeClosure (decl : FunDecl) (isInitializer : Bool) :
    (relining g).Mirrors (Closure.reline g) (makeClosure decl isInitializer)
      (makeClosure (decl.reline g) isInitializer) :=
  .bind mirrors_freshId fun _ => .bind mirrors_scope fun _ => mirrors_pure rfl

theorem mirrors_bindThis (f : Closure) (receiver : Value) :
    (relining g).Mirrors (Closure.reline g) (bindThis f receiver) (bindThis (f.reline g) (receiver.reline g)) := by
  have frame : (relining g).Mirrors id (newFrame (Bindings.empty.put thisName receiver))
      (newFrame ((Bindings.empty.put thisName receiver).map (Value.reline g))) := mirrors_newFrame _
  rw [Bindings.map_put, Bindings.map_empty] at frame
  exact .bind frame fun _ => .bind mirrors_freshId fun _ => mirrors_pure rfl

theorem mirrors_withoutReturn (f : Closure) :
    (relining g).Mirrors (Value.reline g) (withoutReturn f) (withoutReturn (f.reline g)) :=
  .ite (mirrors_getAt f.frames 0 thisName) (mirrors_pure rfl)

theorem mirrors_readName (name : Token) (depth : Option Nat) :
    (relining g).Mirrors (Value.reline g) (readName name depth) (readName (name.reline g) depth) := by
  cases depth with
  | none => exact mirrors_getNamed globalFrames name
  | some d => exact .bind mirrors_scope fun chain => mirrors_getAt chain d name.lexeme

theorem mirrors_assignName (name : Token) (depth : Option Nat) (v : Value) :
    (relining g).Mirrors id (assignName name depth v) (assignName (name.reline g) depth (v.reline g)) := by
  cases depth with
  | none => exact mirrors_assignNamed globalFrames name v
  | some d => exact .bind mirrors_scope fun chain => mirrors_assignAt chain d name.lexeme v

/-- The name on another line, at the same depth. -/
def moved (g : Relining) (ref : NameRef) : NameRef := ⟨ref.name.reline g, ref.depth⟩

theorem mirrors_readSuperclass (ref : Option NameRef) :
    (relining g).Mirrors (Option.map (Class.reline g)) (readSuperclass ref) (readSuperclass (ref.map (moved g))) := by
  cases ref with
  | none => exact mirrors_pure rfl
  | some ref =>
    refine .bind (mirrors_readName ref.name ref.depth) fun v => ?_
    cases v with
    | classObject => exact mirrors_pure rfl
    | _ => exact mirrors_crash _

theorem mirrors_enterSubclass (base : Option Class) :
    (relining g).Mirrors id (enterSubclass base) (enterSubclass (base.map (Class.reline g))) := by
  cases base with
  | none => exact mirrors_pure rfl
  | some base =>
    have frame : (relining g).Mirrors id (newFrame (Bindings.empty.put superName (.classObject base)))
        (newFrame ((Bindings.empty.put superName (.classObject base)).map (Value.reline g))) := mirrors_newFrame _
    rw [Bindings.map_put, Bindings.map_empty] at frame
    exact .bind frame fun _ => .bind mirrors_scope fun _ => mirrors_setScope _

/-! ### The simulation -/

/-- A result and what replaces it, with values that go together. -/
inductive Replaced (g : Relining) (R : α → β → Prop) :
    EStateM.Result Ending Machine α → EStateM.Result Ending Machine β → Prop
  | ok {a : α} {a' : β} {m : Machine} (related : R a a') : Replaced g R (.ok a m) (.ok a' (m.reline g))
  | error (ending : Ending) (m : Machine) :
    Replaced g R (.error ending m) (.error ((relining g).ending ending) (m.reline g))

section
variable {x : Eval α} {y : Eval α'} {R : α → α' → Prop}

theorem mirrors_of_replaced (ends : ∀ m : Machine, Replaced g R (x m) (y (m.reline g)))
    (same : ∀ a a', R a a' → value a = a') : (relining g).Mirrors value x y := by
  intro m
  have replaced := ends m
  rw [state_relining]
  generalize x m = r, y (m.reline g) = r' at replaced
  cases replaced with
  | ok related =>
    rw [← same _ _ related]
    rfl
  | error => rfl

theorem replaced_of_mirrors (mirrors : (relining g).Mirrors value x y) {m m' : Machine}
    (pair : m.reline g = m') (related : ∀ a m₁, x m = .ok a m₁ → R a (value a)) :
    Replaced g R (x m) (y m') := by
  have same := mirrors m
  rw [state_relining, pair] at same
  rw [same]
  cases ends : x m with
  | ok a m₁ => exact .ok (related a m₁ ends)
  | error ending m₁ => exact .error ending m₁

end

def relinedKinds (g : Relining) : Kinds where
  objects o o' := Value.reline g (.object o) = .object o'
  classes c c' := c.reline g = c'
  methods method method' := method.reline g = method'
  functions f f' := f.reline g = f'
  traits t t' := t.reline g = t'
  builtins _ := True

theorem rel_reline? {P : β → β' → Prop} {f : Class → Option β} {f' : Class → Option β'} {madeBy : Option Class}
    (each : ∀ c : Class, Option.Rel P (f c) (f' (c.reline g))) :
    Option.Rel P (madeBy.bind f) ((Class.reline? g madeBy).bind f') := by
  cases madeBy with
  | none => exact .none
  | some c => exact each c

theorem rel_findMethod?_reline (name : String) (c : Class) :
    Option.Rel (fun method method' => Method.reline g method = method') (c.findMethod? name)
      ((c.reline g).findMethod? name) := by
  rw [Class.findMethod?_reline]
  exact rel_map _ _

theorem agree_relinedKinds : (relinedKinds g).Agree where
  object_id alike := by
    cases alike
    rfl
  object_name {o _} alike := by
    cases alike
    simp only [Class.reline?_eq_map, Option.map_map]
    congr 1
    exact funext Class.name_reline
  object_method name alike := by
    cases alike
    exact rel_reline? (rel_findMethod?_reline name)
  class_id alike := by rw [← alike, Class.id_reline]
  class_name alike := by rw [← alike, Class.name_reline]
  class_method name alike := by
    rw [← alike, Class.metaclass_reline]
    exact rel_reline? (rel_findMethod?_reline name)
  makes id alike := by
    rw [← alike]
    rfl
  method {method _} alike := by
    subst alike
    cases method with
    | closure => exact .closure rfl
    | builtin => exact .builtin trivial
  method_arity alike := by rw [← alike, Method.arity_reline]
  function_id alike := by rw [← alike]; rfl
  function_name alike := by rw [← alike]; simp [Closure.reline]
  function_arity alike := by rw [← alike]; simp [Closure.reline]
  function_getter alike := by rw [← alike]; simp [Closure.reline]
  trait_id alike := by rw [← alike]; rfl
  trait_name alike := by rw [← alike]; rfl

theorem ofKind_reline (v : Value) : (relinedKinds g).Values v (v.reline g) := by
  cases v with
  | nil | bool | number | string | array | arrayFunction => constructor
  | object => exact .object rfl
  | classObject => exact .classObject rfl
  | function => exact .function rfl
  | trait => exact .trait rfl
  | builtin => exact .builtin trivial

theorem map_eq_of_forall₂ {f : α → β} {xs : List α} {ys : List β} (all : List.Forall₂ (fun x y => f x = y) xs ys) :
    xs.map f = ys := by
  rw [← List.forall₂_eq_eq_eq, List.forall₂_map_left_iff]
  exact all

/-- A program and the program on other lines, run side by side. The built-in functions report errors at tokens of no
line, which has to be left as it is. -/
def relined (fixed : g.line 0 = 0) : Simulation Unit where
  Later _ _ := True
  Tokens t t' := t.reline g = t'
  kinds _ := relinedKinds g
  Values _ v v' := v.reline g = v'
  Machines _ m m' := m.reline g = m'
  Ends _ R := Replaced g (R ())
  later_refl _ := trivial
  later_trans _ _ := trivial
  lexeme_eq same := by rw [← same, Token.lexeme_reline]
  kind_eq same := by rw [← same, Token.kind_reline]
  native nowhere := by rw [Token.reline, nowhere, fixed, ← nowhere]
  mono _ alike := alike
  classes_mono _ alike := alike
  ofKind alike := alike ▸ ofKind_reline _
  plain {_ value} isPlain := by
    cases value with
    | nil | bool | number | string | array | arrayFunction => rfl
    | _ => cases isPlain
  object alike := alike
  function alike := by rw [← alike]; rfl
  builtin _ := rfl
  agree _ := agree_relinedKinds
  machines pair := by
    subst pair
    refine ⟨fun id name => ?_, by simp [Machine.reline], fun id => ?_, rfl, rfl, rfl, rfl⟩
    · rw [Machine.fieldsOf_reline, Bindings.get?_map]
      exact rel_map _ _
    · rw [Machine.elements_reline, Array.toList_map, List.forall₂_map_right_iff, List.forall₂_same]
      exact fun _ _ => rfl
  aside _ _ _ _ pair := ⟨(), trivial, pair ▸ rfl⟩
  addArray pair all := by
    refine ⟨(), trivial, ?_⟩
    rw [← pair, ← Array.toList_inj.mp ((Array.toList_map).trans (map_eq_of_forall₂ all))]
    simp [Machine.reline]
  setElement id cell _ _ pair alike := by
    refine ⟨(), trivial, ?_⟩
    rw [← pair, ← alike]
    simp only [Machine.reline]
    congr 1
    exact map_modify (fun as => Array.map_setIfInBounds) _ id
  setField id name _ _ pair alike := by
    refine ⟨(), trivial, ?_⟩
    rw [← pair, ← alike]
    simp only [Machine.reline, map_modify_put]
  ok _ pair related := pair ▸ .ok related
  failed cause pair same := by
    subst pair same
    exact .error _ _
  crashed pair _ := pair ▸ .error _ _
  outOfFuel pair := pair ▸ .error _ _
  bind {_ _ _ _ _ _ x x' _ _ _ m m'} _ first next := by
    simp only [Bind.bind, EStateM.bind]
    generalize ends : x m = r, x' m' = r' at first
    cases first with
    | ok related => exact next () _ _ _ _ ends trivial rfl related
    | error ending m₁ => exact .error ending m₁
  newObject pair := replaced_of_mirrors mirrors_newObject pair fun _ _ _ => rfl
  bindThis pair method receivers := by
    obtain rfl := Method.closure.inj method
    subst receivers
    refine replaced_of_mirrors (mirrors_bindThis _ _) pair fun _ _ ends => ⟨rfl, ?_⟩
    cases ends
    rfl

/-! ### Classes and traits -/

section
variable {f : β → β'}

theorem paired_map (b : Bindings β) : b.Paired (fun a a' => f a = a') (b.map f) :=
  List.forall₂_map_right_iff.mpr (List.forall₂_same.mpr fun _ _ => ⟨rfl, rfl⟩)

theorem map_eq_of_paired {b : Bindings β} {b' : Bindings β'} (paired : b.Paired (fun a a' => f a = a') b') :
    b.map f = b' := by
  refine congrArg Bindings.mk (map_eq_of_forall₂ (List.Forall₂.imp ?_ paired))
  exact fun _ _ both => Prod.ext both.1.symm both.2

theorem forall₂_relineAll (decls : List FunDecl) :
    List.Forall₂ (fun f f' => f.reline g = f') decls (FunDecl.relineAll g decls) := by
  rw [FunDecl.relineAll_eq_map]
  exact forall₂_map _ decls

end

def relineDecl (g : Relining) (decl : ClassDecl) : ClassDecl where
  name := decl.name.reline g
  superclass := decl.superclass.map (moved g)
  methods := FunDecl.relineAll g decl.methods
  classMethods := FunDecl.relineAll g decl.classMethods
  traits := decl.traits.map (moved g)

def declares (fixed : g.line 0 = 0) : (relined fixed).Declares where
  Refs _ ref ref' := moved g ref = ref'
  Decls _ f f' := f.reline g = f'
  Closures _ f f' := f.reline g = f'
  lexeme_eq same := by rw [← same, FunDecl.name_reline, Token.lexeme_reline]
  refs_mono _ _ same := same
  decls_mono _ _ same := same
  closures_mono _ same := same
  methods_mono _ same := same
  method same := congrArg Method.closure same
  trait_methods same := same ▸ paired_map _
  readName pair same := same ▸ replaced_of_mirrors (mirrors_readName _ _) pair fun _ _ _ => rfl
  notTrait pair same := same ▸ follows_crash pair rfl
  makeClosure isInitializer pair same :=
    same ▸ replaced_of_mirrors (mirrors_makeClosure _ isInitializer) pair fun _ _ _ => rfl
  newClass name pair bases owners tables := by
    refine replaced_of_mirrors mirrors_newObject pair fun id _ _ => ⟨rfl, ?_⟩
    have option {c c' : Option Class} (both : Option.Rel (relinedKinds g).classes c c') : Class.reline? g c = c' := by
      cases both with
      | none => rfl
      | some same => exact congrArg some same
    change Class.reline g _ = _
    rw [Class.reline, option bases, option owners, map_eq_of_paired tables]

variable (fixed : g.line 0 = 0)
include fixed

theorem mirrors_makeClass (decl : ClassDecl) (base : Option Class) :
    (relining g).Mirrors (Class.reline g) (makeClass decl base)
      (makeClass (relineDecl g decl) (base.map (Class.reline g))) := by
  refine mirrors_of_replaced (fun m => ?_) fun _ _ same => same
  exact (declares fixed).makeClass (w := ()) rfl rfl (rel_map _ base)
    (forall₂_relineAll decl.classMethods)
    (forall₂_relineAll decl.methods) (forall₂_map _ decl.traits)

theorem mirrors_declareClass (decl : ClassDecl) :
    (relining g).Mirrors id (declareClass decl) (declareClass (relineDecl g decl)) :=
  .bind (mirrors_readSuperclass decl.superclass) fun base => .bind (mirrors_define decl.name.lexeme .nil) fun _ =>
    .bind mirrors_scope fun outer => .bind (mirrors_enterSubclass base) fun _ => .bind (mirrors_makeClass fixed decl base) fun c =>
      .bind (mirrors_setScope outer) fun _ => mirrors_assignNamed outer decl.name (.classObject c)

theorem mirrors_declareTrait (name : Token) (traits : List NameRef) (methods : List FunDecl) :
    (relining g).Mirrors id (declareTrait ⟨name, traits, methods⟩)
      (declareTrait ⟨name.reline g, traits.map (moved g), FunDecl.relineAll g methods⟩) := by
  have included : (relining g).Mirrors (Bindings.map (Closure.reline g)) (includeTraits .empty traits)
      (includeTraits .empty (traits.map (moved g))) := by
    refine mirrors_of_replaced (fun m => ?_) fun _ _ => map_eq_of_paired
    exact (declares fixed).includeTraits (w := ()) rfl Bindings.alike_empty (forall₂_map _ traits)
  have added (table : Bindings Closure) : (relining g).Mirrors (Bindings.map (Closure.reline g))
      (addTraitMethods table methods)
      (addTraitMethods (table.map (Closure.reline g)) (FunDecl.relineAll g methods)) := by
    refine mirrors_of_replaced (fun m => ?_) fun _ _ => map_eq_of_paired
    exact (declares fixed).addTraitMethods (w := ()) rfl (paired_map table) (forall₂_relineAll methods)
  exact .bind (mirrors_define name.lexeme .nil) fun _ => .bind included fun table => .bind (added table) fun _ =>
    .bind mirrors_freshId fun _ => .bind mirrors_scope fun _ => mirrors_assignNamed _ name _

omit fixed

/-! ### Depths in a table -/

def lookUp (table : Nat → Option Nat) (ref : NameRef) : NameRef := ⟨ref.name, ref.depth.bind table⟩

/-- The expression after its own depth has been looked up. Those inside it are still to be looked up. -/
def lookUpExpr (table : Nat → Option Nat) : Expr → Expr
  | .var name depth => .var name (depth.bind table)
  | .assign name value depth => .assign name value (depth.bind table)
  | .this keyword depth => .this keyword (depth.bind table)
  | .super keyword method depth => .super keyword method (depth.bind table)
  | e => e

def lookUpStmt (table : Nat → Option Nat) : Stmt → Stmt
  | .classDef ⟨name, base, methods, own, traits⟩ =>
    .classDef ⟨name, base.map (lookUp table), methods, own, traits.map (lookUp table)⟩
  | .traitDef ⟨name, traits, methods⟩ => .traitDef ⟨name, traits.map (lookUp table), methods⟩
  | s => s

mutual

/-- Evaluates an expression within a number of layers. The depth of a name is looked up when the name is met. -/
def evaluateBy (table : Nat → Option Nat) : Nat → Expr → Eval Value
  | 0, _ => throw .outOfFuel
  | n + 1, e => evalStep ⟨n, evaluateBy table n, executeBy table n⟩ (lookUpExpr table e)

def executeBy (table : Nat → Option Nat) : Nat → Stmt → Eval Unit
  | 0, _ => throw .outOfFuel
  | n + 1, s => execStep ⟨n, evaluateBy table n, executeBy table n⟩ (lookUpStmt table s)

end

/-- Where the depths themselves stand in the program, nothing has to be looked up. -/
theorem executeBy_some (n : Nat) : evaluateBy some n = evaluate n ∧ executeBy some n = execute n := by
  have refs : lookUp some = id := funext fun ref => by simp [lookUp]
  have exprs (e : Expr) : lookUpExpr some e = e := by cases e <;> simp [lookUpExpr]
  have stmts (s : Stmt) : lookUpStmt some s = s := by
    cases s with
    | classDef decl | traitDef decl => cases decl; simp [lookUpStmt, refs]
    | _ => rfl
  induction n with
  | zero => exact ⟨rfl, rfl⟩
  | succ n ih =>
    refine ⟨funext fun e => ?_, funext fun s => ?_⟩
    · rw [evaluateBy, exprs, ih.1, ih.2, evaluate]
    · rw [executeBy, stmts, ih.1, ih.2, execute]

/-! ### Evaluation -/

section
variable (fixed : g.line 0 = 0) {table table' : Nat → Option Nat}
  (looked : ∀ depth : Option Nat, (depth.bind g.depth).bind table' = depth.bind table)

theorem mirrors_catchReturn {x y : Eval Unit} {z z' : Eval Value}
    (body : (relining g).Mirrors id x y)
    (otherwise : (relining g).Mirrors (Value.reline g) z z') :
    (relining g).Mirrors (Value.reline g) (catchReturn x z) (catchReturn y z') := by
  intro m
  simp only [catchReturn, body m]
  cases x m with
  | ok _ m' => exact otherwise m'
  | error ending => cases ending <;> rfl

section
variable {run run' : Runner} (runs : ∀ s, (relining g).Mirrors id (run s) (run' (s.reline g)))
include runs

theorem mirrors_runAll (body : List Stmt) :
    (relining g).Mirrors id (runAll run body) (runAll run' (body.map (Stmt.reline g))) := by
  induction body with
  | nil => exact mirrors_pure rfl
  | cons s _ ih => exact .bind (runs s) fun _ => ih

theorem mirrors_callClosure (f : Closure) (args : List Value) :
    (relining g).Mirrors (Value.reline g) (callClosure run f args)
      (callClosure run' (f.reline g) (args.map (Value.reline g))) := by
  have names : ((f.reline g).decl.params.getD []).map Token.lexeme = (f.decl.params.getD []).map Token.lexeme := by
    simp only [Closure.reline, FunDecl.params_reline]
    cases f.decl.params <;> simp [Token.reline]
  have frame : (relining g).Mirrors id
      (newFrame (Bindings.empty.putAll (((f.decl.params.getD []).map Token.lexeme).zip args)))
      (newFrame (Bindings.empty.putAll (((f.decl.params.getD []).map Token.lexeme).zip (args.map (Value.reline g))))) := by
    rw [List.zip_map_right, ← Bindings.map_empty (Value.reline g)]
    exact Bindings.map_putAll (Value.reline g) _ _ ▸ mirrors_newFrame _
  simp only [callClosure, names]
  refine .bind frame fun id => mirrors_catchReturn (mirrors_within _ ?_) (mirrors_withoutReturn f)
  have body := mirrors_runAll runs f.decl.body
  rwa [← FunDecl.body_reline] at body

end

theorem catchesBreak_relined : (relined fixed).CatchesBreak := by
  intro w m m' x x' pair inner
  unfold Follows at inner ⊢
  simp only [Eval.catchBreak]
  generalize x m = r, x' m' = r' at inner
  cases inner with
  | ok => exact .ok rfl
  | error ending m₁ =>
    cases ending with
    | broke => exact .ok rfl
    | _ => exact .error _ m₁

variable {parts parts' : Parts}
  (evals : ∀ e, (relining g).Mirrors (Value.reline g) (parts.eval e) (parts'.eval (e.reline g)))
  (runs : ∀ s, (relining g).Mirrors id (parts.exec s) (parts'.exec (s.reline g)))
include evals

theorem evals_relined (e : Expr) : (relined fixed).Evals parts parts' () e (e.reline g) :=
  fun _ _ _ _ pair => replaced_of_mirrors (evals e) pair fun _ _ _ => rfl

theorem evalsAll_relined (es : List Expr) :
    List.Forall₂ ((relined fixed).Evals parts parts' ()) es (Expr.relineAll g es) := by
  induction es with
  | nil => exact .nil
  | cons e _ ih => exact .cons (evals_relined fixed evals e) ih

theorem mirrors_evalOption (e : Option Expr) :
    (relining g).Mirrors (Value.reline g) (evalOption parts.eval e)
      (evalOption parts'.eval (e.map (Expr.reline g))) := by
  cases e with
  | none => exact mirrors_pure rfl
  | some e => exact evals e

include fixed runs looked

theorem mirrors_evalStep (e : Expr) :
    (relining g).Mirrors (Value.reline g) (evalStep parts (lookUpExpr table e))
      (evalStep parts' (lookUpExpr table' (e.reline g))) := by
  have all := evalsAll_relined fixed evals
  have evals := evals_relined fixed evals
  have calls : (relined fixed).Calls () parts.exec parts'.exec := by
    rintro _ m m' f _ args _ _ pair rfl given _
    obtain rfl := map_eq_of_forall₂ given
    exact replaced_of_mirrors (mirrors_callClosure runs f args) pair fun _ _ _ => rfl
  refine mirrors_of_replaced (R := fun v v' => v.reline g = v') (fun m => ?_) fun _ _ same => same
  have pair : (relined fixed).Machines () m (m.reline g) := rfl
  cases e with
  | binary left _ right => exact follows_binary _ pair (evals left) rfl (evals right)
  | logical left _ right => exact follows_logical _ pair (evals left) rfl (evals right)
  | unary _ operand => exact follows_unary _ pair rfl (evals operand)
  | conditional test yes no =>
    exact follows_conditional _ pair (evals test) (evals yes) (evals no)
  | grouping inner => exact (evals inner).here pair
  | literal literal => exact .ok (Value.reline_ofLiteral literal)
  | var name depth | this name depth =>
    rw [Expr.reline, lookUpExpr, lookUpExpr, looked]
    exact replaced_of_mirrors (mirrors_readName name (depth.bind table)) rfl fun _ _ _ => rfl
  | assign name value depth =>
    rw [Expr.reline, lookUpExpr, lookUpExpr, looked]
    refine follows_assign _ pair (evals value) ?_
    rintro _ m₁ m₁' v _ _ pair rfl
    exact replaced_of_mirrors (mirrors_assignName name (depth.bind table) v) pair fun _ _ _ => rfl
  | call callee _ arguments =>
    exact follows_call _ pair calls (evals callee) rfl (all arguments)
  | get object => exact follows_getStep _ pair calls (evals object) rfl
  | set object _ value => exact follows_setStep _ pair (evals object) rfl (evals value)
  | super _ _ depth =>
    rw [Expr.reline, lookUpExpr, lookUpExpr, looked]
    cases depth.bind table with
    | none => exact .error (.crashed .unresolvedSuper) m
    | some d =>
      refine follows_readSuper pair rfl ?_ ?_
      · exact replaced_of_mirrors (mirrors_getAt m.scope d superName) rfl fun _ _ _ => rfl
      · intro _ m₁ m₁' _ pair
        exact replaced_of_mirrors (mirrors_getAt m.scope (d - 1) thisName) pair fun _ _ _ => rfl
  | missing => exact .ok rfl

theorem mirrors_execStep (same : parts'.fuel = parts.fuel) (s : Stmt) :
    (relining g).Mirrors id (execStep parts (lookUpStmt table s)) (execStep parts' (lookUpStmt table' (s.reline g))) := by
  have refs : lookUp table' ∘ NameRef.reline g = moved g ∘ lookUp table :=
    funext fun ref => congrArg (NameRef.mk _) (looked ref.depth)
  have execs (s : Stmt) : (relined fixed).Execs parts parts' () s (s.reline g) :=
    fun _ _ _ _ pair => replaced_of_mirrors (runs s) pair fun _ _ _ => rfl
  have simulated {x x' : Eval Unit} (follows : ∀ m : Machine,
      (relined fixed).Follows () m (m.reline g) x x' Same) :
      (relining g).Mirrors id x x' := mirrors_of_replaced follows fun _ _ same => same
  cases s with
  | expression value => exact simulated fun _ => follows_expression _ rfl (evals_relined fixed evals value)
  | print value => exact simulated fun _ => follows_print _ rfl (evals_relined fixed evals value)
  | var name init =>
    exact .bind (mirrors_evalOption evals init) fun v => mirrors_define name.lexeme v
  | block body =>
    refine .bind (mirrors_newFrame .empty) fun frame => .bind mirrors_scope fun chain => mirrors_within _ ?_
    rw [Stmt.relineAll_eq_map]
    exact mirrors_runAll runs body
  | ifElse test yes no =>
    cases no with
    | none =>
      exact simulated fun _ => follows_ifElse _ rfl (evals_relined fixed evals test) (execs yes) .none
    | some no =>
      exact simulated fun _ => follows_ifElse _ rfl (evals_relined fixed evals test) (execs yes) (.some (execs no))
  | whileLoop test body =>
    exact simulated fun _ => follows_whileLoop _ rfl (catchesBreak_relined fixed) same
      (evals_relined fixed evals test) (execs body)
  | breakLoop => exact mirrors_throw rfl
  | returnValue _ value => exact .bind (mirrors_evalOption evals value) fun v => mirrors_throw rfl
  | function decl =>
    refine .bind (mirrors_makeClosure decl false) fun f => ?_
    simp only [FunDecl.name_reline, Token.lexeme_reline]
    exact mirrors_define decl.name.lexeme (.function f)
  | classDef decl =>
    cases decl
    rw [Stmt.reline, lookUpStmt, lookUpStmt, Option.map_map, List.map_map, refs, ← Option.map_map, ← List.map_map]
    exact mirrors_declareClass fixed _
  | traitDef decl =>
    cases decl
    rw [Stmt.reline, lookUpStmt, lookUpStmt, List.map_map, refs, ← List.map_map]
    exact mirrors_declareTrait fixed _ _ _
  | missing => exact mirrors_crash _

omit evals runs in
/-- Evaluation on other lines mirrors evaluation, by induction on the number of layers. -/
theorem mirrors_layers (fuel : Nat) :
    (∀ e, (relining g).Mirrors (Value.reline g) (evaluateBy table fuel e) (evaluateBy table' fuel (e.reline g))) ∧
      ∀ s, (relining g).Mirrors id (executeBy table fuel s) (executeBy table' fuel (s.reline g)) := by
  induction fuel with
  | zero => exact ⟨fun _ => mirrors_throw rfl, fun _ => mirrors_throw rfl⟩
  | succ _ ih => exact ⟨mirrors_evalStep fixed looked ih.1 ih.2, mirrors_execStep fixed looked ih.1 ih.2 rfl⟩

end

end Eval

namespace Machine

/-- Runs a program whose depths are in a table. -/
def interpretBy (m : Machine) (table : Nat → Option Nat) (fuel : Nat) (program : List Stmt) : Machine × Option Ending :=
  match m.perform (Eval.runAll (Eval.executeBy table fuel) program) with
  | (m, some (.failed error)) => (m.printAll [error.message], none)
  | result => result

theorem interpretBy_some (m : Machine) (fuel : Nat) : m.interpretBy some fuel = m.interpret fuel := by
  funext program
  rw [interpretBy, (Eval.executeBy_some fuel).2]
  rfl

/-- What a run leaves and how it ended, with other lines and depths. -/
def relineRun (g : Relining) (result : Machine × Option Ending) : Machine × Option Ending :=
  (result.1.reline g, result.2.map (Ending.reline g))

/-- A program on other lines is run as the program is. -/
theorem interpretBy_reline (m : Machine) (fixed : g.line 0 = 0) {table table' : Nat → Option Nat}
    (looked : ∀ depth : Option Nat, (depth.bind g.depth).bind table' = depth.bind table) (fuel : Nat)
    (program : List Stmt) : (m.reline g).interpretBy table' fuel (program.map (Stmt.reline g)) =
      relineRun g (m.interpretBy table fuel program) := by
  have mirrored : Eval.runAll (Eval.executeBy table' fuel) (program.map (Stmt.reline g)) (m.reline g) =
      (relining g).result id (Eval.runAll (Eval.executeBy table fuel) program m) :=
    Eval.mirrors_runAll (Eval.mirrors_layers fixed looked fuel).2 program m
  simp only [interpretBy, perform, EStateM.run, mirrored]
  cases Eval.runAll (Eval.executeBy table fuel) program m with
  | ok => rfl
  | error ending => cases ending <;> rfl

end Machine
end LoxLang
