import LoxLang.Proofs.RenamedSteps
import LoxLang.Proofs.SimulatedDeclarations
import LoxLang.Proofs.Visits

/-!
Runs of programs that differ in the names of local variables. One layer of evaluation ends alike if its parts do; by
induction on the number of layers, so do whole runs.
-/

namespace LoxLang

open Eval

variable {base base' : Option Class} {name : Token} {methods methods' : List FunDecl}

namespace Layout

open Simulation (Same follows_freshId follows_pure)

variable {l : Layout} {m m' m₁ : Machine} {ρ : List Renaming} {w : Sight}

/-! ### Declarations -/

theorem older_of_classes (bases : Option.Rel l.Classes base base') : ∀ c, base = some c → c.id < l.classes.length := by
  rintro c rfl
  cases bases with
  | some related => exact (List.getElem?_eq_some_iff.mp related).1

def declares : simulation.Declares where
  Refs w ref ref' := ref.rename w.namings = ref'
  Decls w := FunDecl.Renamed Renaming.Proper (1 :: w.namings)
  Closures w := w.layout.Closures [1]
  lexeme_eq renamed := congrArg Token.lexeme renamed.name_eq
  refs_mono pair later name := by rwa [namings_of_later pair later]
  decls_mono pair later renamed := by rwa [namings_of_later pair later]
  closures_mono later := Closures.mono later.1
  methods_mono later := Methods.mono later.1
  method := .closure
  trait_methods := Traits.methods
  readName pair name := name ▸ follows_readName pair _ _
  notTrait pair _ := follows_throw pair (.notTrait _ _)
  makeClosure isInitializer pair renamed := follows_makeClosure pair isInitializer renamed
  newClass {w _ _ base base' owner owner' table table'} name pair bases owners tables := by
    let c (id : Nat) : Class := ⟨id, name, base, owner, table⟩
    let c' (id : Nat) : Class := ⟨id, name, base', owner', table'⟩
    have listed : w.layout.Listed w.layout.classes.length (c w.layout.classes.length) (c' w.layout.classes.length) :=
      ⟨rfl, rfl, rfl, bases, owners, older_of_classes bases, tables⟩
    exact follows_newClass pair listed

theorem forall₂_of_allRenamed {decls decls' : List FunDecl}
    (renamed : FunDecl.AllRenamed Renaming.Proper ρ decls decls') :
    List.Forall₂ (FunDecl.Renamed Renaming.Proper ρ) decls decls' := by
  induction decls generalizing decls' with
  | nil =>
    cases renamed
    exact .nil
  | cons _ _ ih =>
    cases renamed with
    | cons first others => exact .cons first (ih others)

theorem machines_entering (pair : simulation.Machines w m m') (bases : Option.Rel w.layout.Classes base base')
    (superclass : Option NameRef) (isBase : base.isSome = superclass.isSome) :
    ∃ u : Sight, w.layout ≤ u.layout ∧ simulation.Machines u (m.entering base) (m'.entering base') ∧
      u.namings = aroundMembers superclass w.namings := by
  cases bases with
  | none =>
    refine ⟨w, le_rfl, pair, ?_⟩
    rw [aroundMembers, ← isBase]
    rfl
  | @some base base' related =>
    have bound := Bindings.alike_empty.put (1 : Renaming).injective superName (Values.classObject related)
    have isChain := pair.1.inSight
    have entered := (pair.1.addFrame m.scope Renaming.proper_one bound).rescope (isChain.addFrame 1)
    refine ⟨⟨w.layout.addFrame m.scope 1, _⟩, w.layout.le_addFrame m.scope 1, ⟨?_, rfl⟩, ?_⟩
    · simpa only [Machine.entering, pair.1.size_left, pair.1.size_right, pair.1.scope, Equiv.Perm.one_apply]
        using entered
    · rw [aroundMembers, ← isBase, Sight.namings, Machine.entering, pair.1.size_left]
      exact (isChain.namings_addFrame 1).trans (by rw [pair.2]; rfl)

theorem grows_entering (m : Machine) (base : Option Class) : m.Grows (m.entering base) := by
  cases base with
  | none => exact .of_frames rfl
  | some => exact (Machine.grows_push m _).trans (.of_frames rfl)

/-- The innermost frame in sight has a variable of that name, which it keeps. -/
def Sight.Declared (w : Sight) (m : Machine) (name : Token) : Prop :=
  ∃ inner outer, w.chain = inner :: outer ∧ w.layout.naming inner name.lexeme = name.lexeme ∧
    (m.frame inner).contains name.lexeme = true

theorem Sight.Declared.later {n n' : Machine} (pair : simulation.Machines w n n') {u : Sight}
    (later : simulation.Later w u) (grown : m.Grows m₁) (declared : w.Declared m name) : u.Declared m₁ name := by
  obtain ⟨inner, outer, chain, kept, bound⟩ := declared
  refine ⟨inner, outer, later.2.trans chain, ?_, grown.bound inner _ bound⟩
  rw [pair.1.inSight.naming_eq later.1 (by simp [pair.2, chain]), kept]

section
variable (pair : simulation.Machines w m m')
include pair

theorem follows_assignDeclared (declared : w.Declared m name) {value value' : Value}
    (alike : w.layout.Values value value') :
    w.Follows m m' (assignNamed w.chain name value) (assignNamed w.chain name value') Same := by
  obtain ⟨inner, outer, chain, kept, bound⟩ := declared
  rw [chain]
  exact follows_assignNamed pair kept (.inl bound) alike

section
variable (kept : KeepsName w.namings name)
include kept

theorem follows_defineKept {value value' : Value} (alike : w.layout.Values value value') :
    w.Follows m m' (define name.lexeme value) (define name.lexeme value') Same := by
  have follows := follows_define pair name.lexeme alike
  rwa [kept] at follows

theorem declared_of_define {value : Value} (ends : define name.lexeme value m = .ok () m₁) :
    w.Declared m₁ name := by
  rw [define_eq] at ends
  cases ends
  cases chain : w.chain with
  | nil => exact absurd (pair.2.trans chain) pair.1.inSight.ne_nil
  | cons inner outer =>
    have scope := pair.2.trans chain
    have inside : inner < m.frames.size := pair.1.size_left ▸ pair.1.inSight.lt_length inner (by simp [scope])
    rw [KeepsName, Sight.namings, chain, renamingAt_namings (show (inner :: outer)[0]? = some inner from rfl)] at kept
    refine ⟨inner, outer, chain, kept, ?_⟩
    rw [Machine.defining, scope, Machine.frame_bind_self inside, Bindings.contains_put]
    exact .inl rfl

end

theorem follows_declareClass (around : w.namings = ρ) (keeps : KeepsName ρ name) (superclass : Option NameRef)
    {classMethods own' : List FunDecl} (traits : List NameRef)
    (renamed : FunDecl.AllRenamed Renaming.Proper (1 :: aroundMembers superclass ρ) methods methods')
    (own : FunDecl.AllRenamed Renaming.Proper (1 :: aroundMembers superclass ρ) classMethods own') :
    w.Follows m m' (declareClass ⟨name, superclass, methods, classMethods, traits⟩)
      (declareClass ⟨name, superclass.map (NameRef.rename ρ), methods', own',
        traits.map (NameRef.rename (aroundMembers superclass ρ))⟩) Same := by
  subst around
  refine .bind pair (declares.readSuperclass pair (rel_map _ superclass)) ?_
  rintro w₁ base base' m₁ m₁' later₁ pair₁ ⟨bases, isBase⟩
  rw [← namings_of_later pair later₁] at keeps
  refine simulation.bind pair₁ (follows_defineKept pair₁ keeps .nil) ?_
  rintro w₂ _ _ m₂ m₂' defined later₂ pair₂ -
  have declared := (declared_of_define pair₁ keeps defined).later pair₁ later₂ (.of_frames rfl)
  refine follows_scope pair₂ ?_
  have bases₂ := classes_option_mono later₂.1 bases
  obtain ⟨u, later, entered, around⟩ := machines_entering pair₂ bases₂ superclass isBase
  rw [← namings_of_later pair later₁, ← namings_of_later pair₁ later₂, ← around] at renamed own ⊢
  rw [Sight.Follows, Simulation.Follows, bind_of_ok (enterSubclass_eq m₂ base), bind_of_ok (enterSubclass_eq m₂' base')]
  refine Follows.leaving pair₂ later (step_makeClass lasting_any _ _).calm
    (declares.makeClass entered rfl (classes_option_mono later bases₂) (forall₂_of_allRenamed own)
      (forall₂_of_allRenamed renamed) (forall₂_map _ traits)) ?_
  intro l c c' m₃ m₃' ends later₃ pair₃ related
  have grown := (grows_entering m₂ base).trans ((step_makeClass lasting_grows _ base).keeps.of_ok ends)
  exact follows_assignDeclared pair₃ (declared.later pair₂ ⟨later₃, rfl⟩ (grown.trans (.of_frames rfl)))
    (.classObject related)

theorem follows_declareTrait (around : w.namings = ρ) (keeps : KeepsName ρ name) (traits : List NameRef)
    (renamed : FunDecl.AllRenamed Renaming.Proper (1 :: ρ) methods methods') :
    w.Follows m m' (declareTrait ⟨name, traits, methods⟩)
      (declareTrait ⟨name, traits.map (NameRef.rename ρ), methods'⟩) Same := by
  subst around
  refine simulation.bind pair (follows_defineKept pair keeps .nil) ?_
  rintro w₁ _ _ m₁ m₁' defined later₁ pair₁ -
  have declared := declared_of_define pair keeps defined
  rw [← namings_of_later pair later₁] at renamed ⊢
  refine simulation.bind pair₁ (declares.includeTraits pair₁ Bindings.alike_empty (forall₂_map _ traits)) ?_
  intro w₂ included included' m₂ m₂' taken later₂ pair₂ tables
  rw [← namings_of_later pair₁ later₂] at renamed
  refine simulation.bind pair₂ (declares.addTraitMethods pair₂ tables (forall₂_of_allRenamed renamed)) ?_
  intro w₃ table table' m₃ m₃' added later₃ pair₃ tables
  refine simulation.bind pair₃ (follows_freshId pair₃) ?_
  rintro w₄ id _ m₄ m₄' drawn later₄ pair₄ rfl
  have later := simulation.later_trans (simulation.later_trans later₂ later₃) later₄
  have grown : m₁.Grows m₄ :=
    ((step_includeTraits lasting_grows _ _).keeps.of_ok taken).trans
      (((step_addTraitMethods lasting_grows _ _).keeps.of_ok added).trans
        ((step_freshId lasting_grows).keeps.of_ok drawn))
  refine follows_scope pair₄ (follows_assignDeclared pair₄ ?_
    (.trait ⟨rfl, rfl, tables.imp fun _ _ => Closures.mono later₄.1⟩))
  exact (declared.later pair later₁ (.of_frames rfl)).later pair₁ later grown

end

/-! ### One layer of evaluation -/

/-- Parts that end alike from related machines. -/
structure PartsFollow (p q : Parts) : Prop where
  fuel : q.fuel = p.fuel
  eval : ∀ {w m m' ρ}, simulation.Machines w m m' → w.namings = ρ → ∀ e,
    w.Follows m m' (p.eval e) (q.eval (e.rename ρ)) simulation.Values
  exec : ∀ {w m m' ρ}, simulation.Machines w m m' → w.namings = ρ →
    ∀ {s s' : Stmt}, Stmt.Renamed Renaming.Proper ρ s s' → w.Follows m m' (p.exec s) (q.exec s') Same

theorem scope_of_within_error {chain : Frames} {x : Eval Unit} {ending : Ending}
    (ends : within chain x m = .error ending m₁) : m₁.scope = m.scope := by
  simp only [within] at ends
  generalize x { m with scope := chain } = r at ends
  cases r <;> cases ends
  rfl

section
variable {p q : Parts} (parts : PartsFollow p q) (pair : simulation.Machines w m m')
include parts pair

section
variable (around : w.namings = ρ)
include around

theorem PartsFollow.evals (e : Expr) : simulation.Evals p q w e (e.rename ρ) := fun _ _ _ later pair₁ =>
  parts.eval pair₁ ((namings_of_later pair later).trans around) e

theorem PartsFollow.execs {s s' : Stmt} (renamed : Stmt.Renamed Renaming.Proper ρ s s') :
    simulation.Execs p q w s s' := fun _ _ _ later pair₁ =>
  parts.exec pair₁ ((namings_of_later pair later).trans around) renamed

theorem PartsFollow.evalsAll (es : List Expr) :
    List.Forall₂ (simulation.Evals p q w) es (Expr.renameAll ρ es) := by
  induction es with
  | nil => exact .nil
  | cons e _ ih => exact .cons (parts.evals pair around e) ih

theorem follows_evalOption (e : Option Expr) :
    w.Follows m m' (evalOption p.eval e) (evalOption q.eval (e.map (Expr.rename ρ))) simulation.Values := by
  cases e with
  | none => exact follows_pure pair .nil
  | some e => exact parts.eval pair around e

theorem follows_runAll {body body' : List Stmt} (renamed : Stmt.AllRenamed Renaming.Proper ρ body body') :
    w.Follows m m' (runAll p.exec body) (runAll q.exec body') Same := by
  induction body generalizing w m m' body' with
  | nil =>
    cases renamed
    exact follows_pure pair rfl
  | cons _ _ ih =>
    cases renamed with
    | cons first others =>
      refine .bind pair (parts.exec pair around first) ?_
      intro u _ _ m₁ m₁' later pair₁ _
      exact ih pair₁ ((namings_of_later pair later).trans around) others

end

theorem follows_callClosure {f f' : Closure} (alike : w.layout.Closures [] f f') {args args' : List Value}
    (given : simulation.AllValues w args args') :
    w.Follows m m' (callClosure p.exec f args) (callClosure q.exec f' args') simulation.Values := by
  obtain ⟨number, decl, frames, isInitializer⟩ := f
  obtain ⟨_, decl', _, _⟩ := f'
  have closures := alike
  obtain ⟨rfl, rfl, rfl, chain, renamed⟩ := alike
  cases renamed with
  | @mk _ π name params body body' proper inner =>
    have names : ((params.map (List.map (Token.rename π))).getD []).map Token.lexeme =
        ((params.getD []).map Token.lexeme).map π := by
      cases params with
      | none => rfl
      | some => simp [Function.comp_def]
    have bound := Bindings.alike_putAll_zip π.injective ((params.getD []).map Token.lexeme) given
    rw [← names] at bound
    refine .bind pair (follows_newFrame pair chain proper bound) ?_
    rintro u id _ m₁ m₁' later₁ pair₁ ⟨rfl, inSight, around⟩
    have inside : simulation.Machines ⟨u.layout, id :: _⟩ _ _ := ⟨pair₁.1.rescope inSight, rfl⟩
    refine Follows.catchReturn pair₁ (fun _ _ => scope_of_within_error)
      (Follows.within pair₁ (follows_runAll parts inside around inner)) ?_
    intro v m₂ m₂' later₂ pair₂
    exact follows_withoutReturn pair₂ (closures.mono (later₁.1.trans later₂.1))

omit pair in
theorem PartsFollow.calls (w : Sight) : simulation.Calls w p.exec q.exec :=
  fun _ _ _ _ _ _ _ _ pair alike given _ => follows_callClosure parts pair alike given

variable (around : w.namings = ρ)
include around

theorem follows_evalStep (e : Expr) :
    w.Follows m m' (evalStep p e) (evalStep q (e.rename ρ)) simulation.Values := by
  have evals := parts.evals pair around
  have calls := parts.calls w
  cases e with
  | binary left _ right => exact simulation.follows_binary pair (evals left) rfl (evals right)
  | logical left _ right => exact simulation.follows_logical pair (evals left) rfl (evals right)
  | unary _ operand => exact simulation.follows_unary pair rfl (evals operand)
  | conditional test yes no =>
    exact simulation.follows_conditional pair (evals test) (evals yes) (evals no)
  | grouping inner => exact parts.eval pair around inner
  | literal value => exact follows_pure pair (.of_isPlain (by cases value <;> rfl))
  | var name depth | this name depth =>
    subst around
    exact follows_readName pair name depth
  | assign name value depth =>
    refine simulation.follows_assign pair (evals value) ?_
    intro u m₁ m₁' a a' later pair₁ alike
    obtain rfl := (namings_of_later pair later).trans around
    exact follows_assignName pair₁ name depth alike
  | call callee _ args =>
    exact simulation.follows_call pair calls (evals callee) rfl (parts.evalsAll pair around args)
  | get object => exact simulation.follows_getStep pair calls (evals object) rfl
  | set object _ value => exact simulation.follows_setStep pair (evals object) rfl (evals value)
  | super _ _ depth =>
    cases depth with
    | none => exact follows_crash pair _
    | some d =>
      refine Simulation.follows_readSuper (S := simulation) pair rfl ?_ ?_
      · rw [pair.1.scope]
        exact follows_getAt_super pair m.scope d
      · intro u m₁ m₁' _ pair₁
        rw [pair.1.scope]
        exact follows_getAt_this pair₁ m.scope (d - 1)
  | missing => exact follows_pure pair .nil

theorem follows_execStep {s s' : Stmt} (renamed : Stmt.Renamed Renaming.Proper ρ s s') :
    w.Follows m m' (execStep p s) (execStep q s') Same := by
  have evals := parts.evals pair around
  cases renamed with
  | @expression _ value => exact simulation.follows_expression pair (evals value)
  | @print _ value => exact simulation.follows_print pair (evals value)
  | @var _ name init =>
    refine .bind pair (follows_evalOption parts pair around init) ?_
    intro u a a' m₁ m₁' later pair₁ alike
    obtain rfl := (namings_of_later pair later).trans around
    exact follows_define pair₁ name.lexeme alike
  | @block _ π body body' proper inner =>
    have isChain := pair.1.inSight
    rw [pair.2] at isChain
    refine .bind pair (follows_newFrame pair isChain proper Bindings.alike_empty) ?_
    rintro u id _ m₁ m₁' later pair₁ ⟨rfl, inSight, around₁⟩
    refine follows_scope pair₁ ?_
    rw [show u.chain = w.chain from later.2]
    have inside : simulation.Machines ⟨u.layout, id :: w.chain⟩ _ _ := ⟨pair₁.1.rescope inSight, rfl⟩
    exact Follows.within pair₁ (follows_runAll parts inside (around ▸ around₁) inner)
  | @ifThen _ test _ _ yes =>
    exact simulation.follows_ifElse pair (evals test) (parts.execs pair around yes) .none
  | @ifElse _ test _ _ _ _ yes no =>
    exact simulation.follows_ifElse pair (evals test) (parts.execs pair around yes)
      (.some (parts.execs pair around no))
  | @whileLoop _ test body body' inner =>
    exact simulation.follows_whileLoop pair catchesBreak parts.fuel (evals test) (parts.execs pair around inner)
  | breakLoop => exact follows_throw pair .broke
  | @returnValue _ keyword value =>
    refine .bind pair (follows_evalOption parts pair around value) ?_
    intro u a a' m₁ m₁' _ pair₁ alike
    exact follows_throw pair₁ (.returned alike)
  | @function _ f f' kept inner =>
    have made : w.Follows m m' (makeClosure f false) (makeClosure f' false) fun u => u.layout.Closures [] :=
      follows_makeClosure pair _ (around ▸ inner)
    rw [execStep, execStep, inner.name_eq]
    refine .bind pair made ?_
    intro u g g' m₁ m₁' later pair₁ related
    obtain rfl := (namings_of_later pair later).trans around
    exact follows_defineKept pair₁ kept (.function related)
  | @classDef _ name base methods methods' classMethods own' traits kept inner own =>
    exact follows_declareClass pair around kept base traits inner own
  | @traitDef _ name traits methods methods' kept inner =>
    exact follows_declareTrait pair around kept traits inner
  | missing => exact follows_crash pair _

end

/-! ### Runs -/

theorem partsFollow_ofFuel (n : Nat) : PartsFollow (.ofFuel n) (.ofFuel n) := by
  induction n with
  | zero =>
    refine ⟨rfl, ?_, ?_⟩
    · intro w m m' ρ pair _ e
      exact follows_throw pair .outOfFuel
    · intro w m m' ρ pair _ s s' _
      exact follows_throw pair .outOfFuel
  | succ _ ih =>
    refine ⟨rfl, ?_, ?_⟩
    · intro w m m' ρ pair around e
      exact follows_evalStep ih pair around e
    · intro w m m' ρ pair around s s' renamed
      exact follows_execStep ih pair around renamed

def start : Layout := ⟨[⟨[], 1⟩], []⟩

theorem machines_start (clock dice : Readings) : start.Machines (.start clock dice) (.start clock dice) where
  size_left := rfl
  size_right := rfl
  frames id := by
    have trivial : start.naming id = 1 := by
      cases id with
      | zero => rfl
      | succ => rfl
    have globals : ∀ entries : List (String × Builtin), ∀ b : Bindings Value,
        b.Alike (1 : Renaming) start.Values b →
        (b.putAll (entries.map fun entry => (entry.1, .builtin entry.2))).Alike (1 : Renaming) start.Values
          (b.putAll (entries.map fun entry => (entry.1, .builtin entry.2))) := by
      intro entries
      induction entries with
      | nil => exact fun b alike => alike
      | cons entry _ ih =>
        exact fun b alike => ih _ (alike.put (1 : Renaming).injective entry.1 (.builtin entry.2))
    rw [trivial]
    cases id with
    | zero => exact globals builtinNames .empty Bindings.alike_empty
    | succ => exact Bindings.alike_empty
  proper id := by
    cases id with
    | zero => exact Renaming.proper_one
    | succ => exact Renaming.proper_one
  scope := rfl
  inSight := .globals rfl
  objects_left := rfl
  objects_right := rfl
  fields _ := Bindings.alike_empty
  classes id c c' found := by cases found
  arrays := rfl
  elements _ := .nil
  fresh := rfl
  printed := rfl
  clock := rfl
  dice := rfl

end Layout

end LoxLang
