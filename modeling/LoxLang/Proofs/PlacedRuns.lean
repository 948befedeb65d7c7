import LoxLang.Proofs.PlacedSteps

/-!
Runs on two machines one of which has some more frames. One layer of evaluation ends alike if its parts do, and trees
that differ in their depths; by induction on the number of layers, so do whole runs.
-/

namespace LoxLang

open Eval

namespace Placement

open Simulation (follows_freshId follows_scope follows_pure)

variable {p : Placement} {g : Nat → Nat} {m m' : Machine}

/-! ### Declarations -/

def declares (p : Placement) : p.simulation.Declares where
  Refs g ref ref' := ref.shift g = ref'
  Decls g := FunDecl.Shifted (under g)
  Closures _ := p.Closures under
  lexeme_eq shifted := congrArg Token.lexeme shifted.name_eq
  refs_mono _ later name := later ▸ name
  decls_mono _ later shifted := later ▸ shifted
  closures_mono _ related := related
  methods_mono _ related := related
  method := .closure
  trait_methods := Traits.methods
  readName pair name := name ▸ follows_readName pair _ _
  notTrait pair name := name ▸ follows_crash pair _
  makeClosure _ pair shifted := follows_makeClosure pair shifted fun _ => rfl
  newClass name pair bases owners tables := by
    refine .imp pair (p.simulation.newObject pair) ?_
    rintro - id _ rfl
    exact ⟨rfl, .mk id name bases owners tables⟩

theorem forall₂_of_allShifted {decls decls' : List FunDecl} (shifted : FunDecl.AllShifted g decls decls') :
    List.Forall₂ (FunDecl.Shifted g) decls decls' := by
  induction decls generalizing decls' with
  | nil =>
    cases shifted
    exact .nil
  | cons _ _ ih =>
    cases shifted with
    | cons first others => exact .cons first (ih others)

section
variable (pair : p.Machines g m m')
include pair

theorem Machines.entering {base base' : Option Class} (bases : Option.Rel p.Classes base base')
    {superclass : Option NameRef} (isBase : base.isSome = superclass.isSome) :
    p.Machines (underBase superclass g) (m.entering base) (m'.entering base') := by
  cases bases with
  | none =>
    rw [underBase, ← isBase]
    exact pair
  | some related =>
    have bound := Bindings.alike_empty.put Function.injective_id superName (Values.classObject related)
    have chains : p.Chains (under g) (m.frames.size :: m.scope) (m'.frames.size :: m'.scope) := by
      rw [← pair.place_size]
      exact .frame m.frames.size pair.scope
    rw [underBase, ← isBase]
    exact (pair.addFrame bound).rescope chains

theorem follows_declareClass (here : g 0 = 0) (name : Token) (superclass : Option NameRef)
    {methods methods' classMethods own' : List FunDecl} (traits : List NameRef)
    (shifted : FunDecl.AllShifted (under (underBase superclass g)) methods methods')
    (own : FunDecl.AllShifted (under (underBase superclass g)) classMethods own') :
    p.Follows g m m' (declareClass ⟨name, superclass, methods, classMethods, traits⟩)
      (declareClass ⟨name, superclass.map (NameRef.shift g), methods', own',
        traits.map (NameRef.shift (underBase superclass g))⟩) Eq := by
  refine Follows.bind (p.declares.readSuperclass pair (rel_map _ superclass)) ?_
  rintro base base' m₁ m₁' pair₁ ⟨bases, isBase⟩
  refine (follows_define pair₁ here name.lexeme .nil).bind ?_
  rintro _ _ m₂ m₂' pair₂ -
  refine follows_scope ?_
  have made : p.Follows (underBase superclass g) (m₂.entering base) (m₂'.entering base')
      (makeClass ⟨name, superclass, methods, classMethods, traits⟩ base)
      (makeClass ⟨name, superclass.map (NameRef.shift g), methods', own', traits.map _⟩ base') p.Classes :=
    p.declares.makeClass (pair₂.entering bases isBase) rfl bases (forall₂_of_allShifted own)
      (forall₂_of_allShifted shifted) (forall₂_map _ traits)
  rw [Simulation.Follows, bind_of_ok (enterSubclass_eq m₂ base), bind_of_ok (enterSubclass_eq m₂' base')]
  unfold Follows Simulation.Follows at made
  simp only [Bind.bind, EStateM.bind]
  generalize ends : makeClass ⟨name, superclass, methods, classMethods, traits⟩ base (m₂.entering base) = r,
    makeClass ⟨name, superclass.map _, methods', own', traits.map _⟩ base' (m₂'.entering base') = r'
    at made
  cases made with
  | ok after related =>
    have back := after.rescope pair₂.scope
    exact follows_assignNamed back pair₂.scope name (.classObject related)
  | error after _ alike =>
    refine .error after ?_ alike
    rintro rfl
    -- a class that cannot be made is an error of its own
    cases (step_makeClass lasting_any _ _).calm ends

theorem follows_declareTrait (here : g 0 = 0) (name : Token) (traits : List NameRef)
    {methods methods' : List FunDecl} (shifted : FunDecl.AllShifted (under g) methods methods') :
    p.Follows g m m' (declareTrait ⟨name, traits, methods⟩)
      (declareTrait ⟨name, traits.map (NameRef.shift g), methods'⟩) Eq := by
  refine (follows_define pair here name.lexeme .nil).bind ?_
  rintro _ _ m₁ m₁' pair₁ -
  refine Follows.bind (p.declares.includeTraits pair₁ Bindings.alike_empty (forall₂_map _ traits)) ?_
  intro included included' m₂ m₂' pair₂ tables
  refine Follows.bind (p.declares.addTraitMethods pair₂ tables (forall₂_of_allShifted shifted)) ?_
  intro table table' m₃ m₃' pair₃ tables
  refine Follows.bind (follows_freshId pair₃) ?_
  rintro id _ m₄ m₄' pair₄ rfl
  exact follows_scope (follows_assignNamed pair₄ pair₄.scope name (.trait ⟨rfl, rfl, tables⟩))

end

/-! ### One layer of evaluation -/

/-- Parts that end alike from related machines, on trees that look up the same variables. -/
structure PartsFollow (p : Placement) (parts parts' : Parts) : Prop where
  fuel : parts'.fuel = parts.fuel
  eval : ∀ {g : Nat → Nat} {m m' : Machine}, p.Machines g m m' → ∀ {e e' : Expr}, Expr.Shifted g e e' →
    p.Follows g m m' (parts.eval e) (parts'.eval e') p.Values
  exec : ∀ {g : Nat → Nat} {m m' : Machine}, p.Machines g m m' → ∀ {s s' : Stmt}, Stmt.Shifted g s s' →
    p.Follows g m m' (parts.exec s) (parts'.exec s') Eq

theorem catchesBreak : p.simulation.CatchesBreak := fun _ inner => Follows.catchBreak inner

section
variable {parts parts' : Parts} (follow : p.PartsFollow parts parts')
include follow

theorem PartsFollow.evals {e e' : Expr} (shifted : Expr.Shifted g e e') :
    p.simulation.Evals parts parts' g e e' := fun _ _ _ later pair => follow.eval pair (later ▸ shifted)

theorem PartsFollow.execs {s s' : Stmt} (shifted : Stmt.Shifted g s s') :
    p.simulation.Execs parts parts' g s s' := fun _ _ _ later pair => follow.exec pair (later ▸ shifted)

theorem PartsFollow.evalsAll {es es' : List Expr} (shifted : Expr.AllShifted g es es') :
    List.Forall₂ (p.simulation.Evals parts parts' g) es es' := by
  induction es generalizing es' with
  | nil =>
    cases shifted
    exact .nil
  | cons _ _ ih =>
    cases shifted with
    | cons first others => exact .cons (follow.evals first) (ih others)

theorem PartsFollow.evalsOption {e e' : Option Expr} (shifted : Expr.OptionShifted g e e') :
    Option.Rel (p.simulation.Evals parts parts' g) e e' := by
  cases shifted with
  | none => exact .none
  | some shifted => exact .some (follow.evals shifted)

variable (pair : p.Machines g m m')
include pair

theorem follows_runAll {body body' : List Stmt} (shifted : Stmt.AllShifted g body body') :
    p.Follows g m m' (runAll parts.exec body) (runAll parts'.exec body') Eq := by
  induction body generalizing m m' body' with
  | nil =>
    cases shifted
    exact follows_pure pair rfl
  | cons _ _ ih =>
    cases shifted with
    | cons first others =>
      refine (follow.exec pair first).bind ?_
      rintro _ _ m₁ m₁' pair₁ -
      exact ih pair₁ others

theorem follows_callClosure {f f' : Closure} (alike : p.Closures id f f') {args args' : List Value}
    (given : p.AllValues args args') :
    p.Follows g m m' (callClosure parts.exec f args) (callClosure parts'.exec f' args') p.Values := by
  obtain ⟨number, decl, frames, isInitializer⟩ := f
  obtain ⟨number', decl', frames', isInitializer'⟩ := f'
  have closures := alike
  obtain ⟨-, -, h, chains, shifted, -⟩ := alike
  cases shifted with
  | mk _ params inner =>
    have bound := Bindings.alike_putAll_zip Function.injective_id ((params.getD []).map Token.lexeme) given
    rw [List.map_id] at bound
    refine (follows_newFrame pair bound).bind ?_
    rintro id _ m₁ m₁' pair₁ rfl
    have inside := pair₁.rescope (.frame id chains)
    refine Follows.call pair₁ (follows_runAll follow inside inner) ?_
    intro m₂ m₂' pair₂
    exact follows_withoutReturn pair₂ closures

theorem follows_evalStep {e e' : Expr} (shifted : Expr.Shifted g e e') :
    p.Follows g m m' (evalStep parts e) (evalStep parts' e') p.Values := by
  have calls : p.simulation.Calls g parts.exec parts'.exec := fun _ _ _ _ _ _ _ _ pair alike given _ =>
    follows_callClosure follow pair alike given
  cases shifted with
  | binary _ left right =>
    exact p.simulation.follows_binary pair (follow.evals left) rfl (follow.evals right)
  | logical _ left right =>
    exact p.simulation.follows_logical pair (follow.evals left) rfl (follow.evals right)
  | unary _ operand => exact p.simulation.follows_unary pair rfl (follow.evals operand)
  | conditional test yes no =>
    exact p.simulation.follows_conditional pair (follow.evals test) (follow.evals yes) (follow.evals no)
  | grouping inner => exact follow.eval pair inner
  | literal value => exact follows_pure pair (.of_isPlain (by cases value <;> rfl))
  | var name depth => exact follows_readName pair name depth
  | assign name value depth =>
    refine p.simulation.follows_assign pair (follow.evals value) ?_
    rintro _ m₁ m₁' a a' rfl pair₁ alike
    exact follows_assignName pair₁ name depth alike
  | call _ target args =>
    exact p.simulation.follows_call pair calls (follow.evals target) rfl (follow.evalsAll args)
  | get object => exact p.simulation.follows_getStep pair calls (follow.evals object) rfl
  | set object _ value =>
    exact p.simulation.follows_setStep pair (follow.evals object) rfl (follow.evals value)
  | this keyword depth => exact follows_readName pair keyword depth
  | @super keyword method depth beside =>
    cases depth with
    | none => exact follows_crash pair _
    | some d =>
      have base := follows_getAt pair pair.scope d superName
      refine Simulation.follows_readSuper (S := p.simulation) pair rfl base ?_
      intro _ m₁ m₁' _ pair₁
      rw [← beside d rfl]
      exact follows_getAt pair₁ pair.scope (d - 1) thisName
  | missing => exact follows_pure pair .nil

theorem follows_execStep {s s' : Stmt} (shifted : Stmt.Shifted g s s') :
    p.Follows g m m' (execStep parts s) (execStep parts' s') Eq := by
  cases shifted with
  | expression inner => exact p.simulation.follows_expression pair (follow.evals inner)
  | print inner => exact p.simulation.follows_print pair (follow.evals inner)
  | var here name inner =>
    refine Follows.bind (p.simulation.follows_evalOption pair (follow.evalsOption inner)) ?_
    intro a a' m₁ m₁' pair₁ alike
    exact follows_define pair₁ here name.lexeme alike
  | block inner =>
    refine (follows_newFrame pair Bindings.alike_empty).bind ?_
    rintro id _ m₁ m₁' pair₁ rfl
    refine follows_scope ?_
    exact Follows.within pair₁ (follows_runAll follow (pair₁.rescope (.frame id pair₁.scope)) inner)
  | ifThen test yes =>
    exact p.simulation.follows_ifElse pair (follow.evals test) (follow.execs yes) .none
  | ifElse test yes no =>
    exact p.simulation.follows_ifElse pair (follow.evals test) (follow.execs yes) (.some (follow.execs no))
  | whileLoop test inner =>
    exact p.simulation.follows_whileLoop pair catchesBreak follow.fuel (follow.evals test) (follow.execs inner)
  | breakLoop => exact follows_throw pair .broke
  | returnValue _ inner =>
    refine Follows.bind (p.simulation.follows_evalOption pair (follow.evalsOption inner)) ?_
    intro a a' m₁ m₁' pair₁ alike
    exact follows_throw pair₁ (.returned alike)
  | @function _ f f' here inner =>
    have made : p.Follows g m m' (makeClosure f false) (makeClosure f' false) (p.Closures id) :=
      follows_makeClosure pair inner (fun isInitializer => by cases isInitializer)
    rw [execStep, execStep, inner.name_eq]
    refine made.bind ?_
    intro c c' m₁ m₁' pair₁ related
    exact follows_define pair₁ here _ (.function related)
  | classDef here name base traits inner own =>
    exact follows_declareClass pair here name base traits inner own
  | traitDef here name traits inner => exact follows_declareTrait pair here name traits inner
  | missing => exact follows_crash pair _

end

/-! ### Runs -/

theorem partsFollow_ofFuel (p : Placement) (n : Nat) : p.PartsFollow (.ofFuel n) (.ofFuel n) := by
  induction n with
  | zero =>
    refine ⟨rfl, ?_, ?_⟩
    · intro g m m' pair e e' _
      exact follows_throw pair .outOfFuel
    · intro g m m' pair s s' _
      exact follows_throw pair .outOfFuel
  | succ _ ih =>
    refine ⟨rfl, ?_, ?_⟩
    · intro g m m' pair e e' shifted
      exact follows_evalStep ih pair shifted
    · intro g m m' pair s s' shifted
      exact follows_execStep ih pair shifted

end Placement

end LoxLang
