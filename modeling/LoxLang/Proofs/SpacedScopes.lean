import LoxLang.Proofs.Resolving
import LoxLang.Proofs.Shifting

/-!
Resolving a statement inside one more scope that has no names. The same reports are made, and every depth that leads out
of the statement is one more: the two trees look up the same variables.
-/

namespace LoxLang

variable {name : String} {τ : Levels}

namespace Scope

/-! ### Scopes with one more in between -/

/-- The depth of a name with one more scope outside of the inner ones. -/
theorem depthOf?_spaced (inner outer : List Declared) (name : String) :
    depthOf? (inner ++ .empty :: outer) name =
      (depthOf? (inner ++ outer) name).map fun d => if d < inner.length then d else d + 1 := by
  induction inner with
  | nil =>
    have new : (Bindings.empty : Declared).contains name = false := rfl
    simp [depthOf?_cons, new]
  | cons first rest ih =>
    rw [List.cons_append, List.cons_append, depthOf?_cons, depthOf?_cons, ih]
    by_cases here : first.contains name = true
    · simp [here]
    · cases depthOf? (rest ++ outer) name with
      | none => simp [here]
      | some d => by_cases inside : d < rest.length <;> simp [here, inside]

theorem depthOf?_inner {inner outer : List Declared} {d : Nat} (found : depthOf? (inner ++ outer) name = some d)
    (inside : d < inner.length) : depthOf? inner name = some d := by
  rw [depthOf?, List.findIdx?_append] at found
  cases within : inner.findIdx? (·.contains name) with
  | some => simpa [depthOf?, within] using found
  | none =>
    simp only [within, Option.none_or, Option.map_eq_some_iff] at found
    obtain ⟨e, -, rfl⟩ := found
    omega

theorem contains_outer {inner outer : List Declared} {d : Nat}
    (found : depthOf? (inner ++ outer) name = some (inner.length + d)) :
    ∃ names, outer[d]? = some names ∧ names.contains name = true := by
  obtain ⟨inside, contained, -⟩ := List.findIdx?_eq_some_iff_getElem.mp found
  refine ⟨(inner ++ outer)[inner.length + d], ?_, contained⟩
  rw [List.getElem_append_right (Nat.le_add_right _ _), ← List.getElem?_eq_getElem]
  simp

/-- The scopes around a statement: the innermost has only names that are set, and it is not that of `super`. -/
def Ready (outer : List Declared) : Prop :=
  ∀ names ∈ outer.head?, (∀ name, names.get? name ≠ some false) ∧ names.contains "super" = false

theorem Encloses.ready {σ : Regions} {inside : ClassContext} (around : Encloses σ inside) : Ready (namesOf σ) := by
  intro names member
  cases σ with
  | nil => cases member
  | cons region =>
    cases member
    constructor
    · intro name unset
      have isSet := around.all 0 name false (declares_cons_zero.mpr unset)
      cases isSet
    · rw [Bindings.contains, Option.isSome_eq_false_iff, Option.isNone_iff_eq_none]
      cases bound : region.names.get? "super" with
      | none => rfl
      | some isSet =>
        obtain ⟨inner, isNext, -⟩ := around.base 0 isSet (declares_cons_zero.mpr bound)
        cases isNext

/-- Depths in the scopes inside one that is added. -/
def spacing (τ : Levels) : Nat → Nat := under^[τ.length] Nat.succ

theorem spacing_apply (τ : Levels) (d : Nat) : spacing τ d = if d < τ.length then d else d + 1 :=
  iterate_under_succ τ.length d

theorem spacing_cons (level : Level) (τ : Levels) : spacing (level :: τ) = under (spacing τ) :=
  Function.iterate_succ_apply' under τ.length Nat.succ

theorem spacing_zero (local_ : τ ≠ []) : spacing τ 0 = 0 := by
  rw [spacing_apply, if_pos (List.length_pos_iff.mpr local_)]

theorem spacing_methodLevels (object : Level) (superclass : Option NameRef) (τ : Levels) :
    spacing (methodLevels object superclass τ) = under (underBase superclass (spacing τ)) := by
  rw [methodLevels, spacing_cons]
  cases superclass with
  | none => rfl
  | some => exact congrArg under (spacing_cons (.scope superRegion) τ)

theorem length_declaringIn (name : String) (isSet : Bool) (τ : Levels) :
    (declaringIn name isSet τ).length = τ.length := by
  unfold declaringIn
  split <;> rfl

theorem spacing_declaringIn (name : String) (isSet : Bool) (τ : Levels) :
    spacing (declaringIn name isSet τ) = spacing τ := by
  rw [spacing, length_declaringIn, spacing]

theorem declaringIn_ne_nil (local_ : τ ≠ []) (name : String) (isSet : Bool) : declaringIn name isSet τ ≠ [] := by
  rw [← List.length_pos_iff, length_declaringIn]
  exact List.length_pos_iff.mpr local_

theorem length_counted (τ : Levels) : (counted τ).length = τ.length + surplus τ := by
  induction τ with
  | nil => rfl
  | cons level _ ih =>
    cases level with
    | scope =>
      rw [counted, List.length_cons, ih, surplus_scope, List.length_cons]
      omega
    | own =>
      rw [counted, List.length_cons, List.length_cons, ih, surplus_own, List.length_cons]
      omega

/-! ### Names that stay inside -/

/-- A name that is declared in one of the scopes around has a depth within them. Only the scopes that are counted twice
can make it larger than that. -/
def Inward (τ : Levels) (name : String) : Prop := ∀ d, depthOf? (namesOf (counted τ)) name = some d → d < τ.length

/-- All names that are resolved stay inside. -/
def AllInward (places : List (Levels × Mention)) : Prop :=
  ∀ place ∈ places, place.2.isIncluded = false → Inward place.1 place.2.name.lexeme

theorem allInward_append {left right : List (Levels × Mention)} :
    AllInward (left ++ right) ↔ AllInward left ∧ AllInward right := by
  constructor
  · intro all
    exact ⟨fun place member => all place (List.mem_append_left _ member),
      fun place member => all place (List.mem_append_right _ member)⟩
  · intro both place member
    exact (List.mem_append.mp member).elim (both.1 place) (both.2 place)

theorem allInward_placed_append {left right : List Mention} :
    AllInward (placed τ (left ++ right)) ↔ AllInward (placed τ left) ∧ AllInward (placed τ right) := by
  rw [placed_append, allInward_append]

theorem allInward_single {mention : Mention} (all : AllInward (placed τ [mention]))
    (isUse : mention.isIncluded = false) : Inward τ mention.name.lexeme := all (τ, mention) List.mem_cons_self isUse

/-- Where no scope is counted twice, all names stay inside. -/
theorem inward_of_surplus (straight : surplus τ = 0) (name : String) : Inward τ name := by
  intro d found
  obtain ⟨inside, -⟩ := List.findIdx?_eq_some_iff_getElem.mp found
  simpa [namesOf, length_counted, straight] using inside

theorem AllIn.inward {places : List (Levels × Mention)} (straight : AllIn 0 places) : AllInward places :=
  fun place member _ => inward_of_surplus (straight place member) place.2.name.lexeme

theorem allInward_top (mentions : List Mention) : AllInward (placed [] mentions) := by
  have straight : AllIn 0 (placed [] mentions) := allIn_placed rfl mentions
  exact straight.inward

theorem Inward.declaringIn {other : String} (inward : Inward τ other) (isOpen : Open τ) (local_ : τ ≠ [])
    (name : String) (isSet : Bool) : Inward (Scope.declaringIn name isSet τ) other := by
  intro d found
  rw [length_declaringIn]
  rw [counted_declaringIn isOpen] at found
  by_cases same : other = name
  · subst same
    cases τ with
    | nil => exact absurd rfl local_
    | cons level τ =>
      cases level with
      | own =>
        have closed := isOpen .own rfl
        cases closed
      | scope region =>
        have here : (region.names.put other isSet).contains other = true := by
          rw [Bindings.contains_put]
          exact .inl rfl
        have first : namesOf (declaring other isSet (counted (.scope region :: τ))) =
            region.names.put other isSet :: namesOf (counted τ) := rfl
        rw [first, depthOf?_cons, if_pos here] at found
        cases found
        exact Nat.succ_pos _
  · rw [depthOf?_declaring same] at found
    exact inward d found

/-- With one more scope outside, the depth of a name that stays inside is that of the shifted tree. -/
theorem Inward.depth_eq (inward : Inward τ name) (outer : List Declared) :
    depthOf? (namesOf (counted τ) ++ .empty :: outer) name =
      (depthOf? (namesOf (counted τ) ++ outer) name).map (spacing τ) := by
  rw [depthOf?_spaced]
  cases found : depthOf? (namesOf (counted τ) ++ outer) name with
  | none => rfl
  | some d =>
    have length : (namesOf (counted τ)).length = τ.length + surplus τ := by rw [namesOf, List.length_map, length_counted]
    rw [Option.map_some, Option.map_some, spacing_apply]
    by_cases inside : d < (namesOf (counted τ)).length
    · rw [if_pos inside, if_pos (inward d (depthOf?_inner found inside))]
    · rw [if_neg inside, if_neg (by omega)]

/-! ### Views -/

/-- What is known at a place, and what is known there with one more scope outside of the inner ones. -/
structure Spaced (outer : List Declared) (τ : Levels) (v v' : View) : Prop where
  scopes : v.scopes = namesOf (counted τ) ++ outer
  spaced : v'.scopes = namesOf (counted τ) ++ .empty :: outer
  function : v'.function = v.function
  classBody : v'.classBody = v.classBody

/-- What is reported about declarations depends on the innermost scope only. -/
theorem declares_congr {v v' : View} (same : v'.scopes.head? = v.scopes.head?) (names : List Token) :
    v'.declares names = v.declares names := by
  induction names generalizing v v' with
  | nil => rfl
  | cons name _ ih =>
    have here : v'.innermost? name.lexeme = v.innermost? name.lexeme := by rw [View.innermost?, View.innermost?, same]
    rw [View.declares, View.declares, here, ih]
    simp [View.set, same]

theorem reports_append {left left' right right' : List Note} (first : reportsOf left' = reportsOf left)
    (second : reportsOf right' = reportsOf right) : reportsOf (left' ++ right') = reportsOf (left ++ right) := by
  rw [reportsOf_append, reportsOf_append, first, second]

theorem reports_pair {p q r : Prop} {left left' right right' : List Note} (join : p → q → r)
    (first : p ∧ reportsOf left' = reportsOf left) (second : q ∧ reportsOf right' = reportsOf right) :
    r ∧ reportsOf (left' ++ right') = reportsOf (left ++ right) :=
  ⟨join first.1 second.1, reports_append first.2 second.2⟩

theorem reports_seeks (v v' : View) (occurrence : Occurrence) (name : Token) :
    reportsOf (v'.seeks occurrence name) = reportsOf (v.seeks occurrence name) :=
  (quiet_seeks occurrence name).trans (quiet_seeks occurrence name).symm

section
variable {outer : List Declared} {τ : Levels} {v v' : View} (views : Spaced outer τ v v')
include views

theorem Spaced.depth_eq (inward : Inward τ name) :
    depthOf? v'.scopes name = (depthOf? v.scopes name).map (spacing τ) := by
  rw [views.scopes, views.spaced]
  exact inward.depth_eq outer

theorem Spaced.thisDepth_eq {keyword : Token} (inward : Inward τ keyword.lexeme) :
    v'.thisDepth? keyword = (v.thisDepth? keyword).map (spacing τ) := by
  rw [View.thisDepth?, View.thisDepth?, views.classBody, views.depth_eq inward]
  split <;> rfl

theorem Spaced.located_eq {ref : NameRef} (inward : Inward τ ref.name.lexeme) :
    located v'.scopes ref = (located v.scopes ref).shift (spacing τ) :=
  congrArg (NameRef.mk ref.name) (views.depth_eq inward)

theorem Spaced.head_eq (local_ : τ ≠ []) : v'.scopes.head? = v.scopes.head? := by
  have some_ : namesOf (counted τ) ≠ [] := by
    rw [← List.length_pos_iff, namesOf, List.length_map, length_counted]
    exact Nat.add_pos_left (List.length_pos_iff.mpr local_) _
  rw [views.scopes, views.spaced, List.head?_append_of_ne_nil _ some_, List.head?_append_of_ne_nil _ some_]

theorem Spaced.put (isOpen : Open τ) (local_ : τ ≠ []) (name : Token) (isSet : Bool) :
    Spaced outer (declaringIn name.lexeme isSet τ) (v.put name isSet) (v'.put name isSet) := by
  have names : namesOf (counted (declaringIn name.lexeme isSet τ)) =
      (namesOf (counted τ)).modifyHead (·.put name.lexeme isSet) := by rw [counted_declaringIn isOpen, namesOf_declaring]
  obtain ⟨level, rest, rfl⟩ := List.exists_cons_of_ne_nil local_
  refine { views with scopes := ?_, spaced := ?_ }
  · rw [names, View.put, views.scopes]
    cases level <;> rfl
  · rw [names, View.put, views.spaced]
    cases level <;> rfl

theorem Spaced.behind (isOpen : Open τ) (local_ : τ ≠ []) (s : Stmt) :
    Spaced outer (behindIn s τ) (v.set (declaredNames s)) (v'.set (declaredNames s)) := by
  have plain : Spaced outer τ (v.set []) (v'.set []) := by rwa [View.set_nil, View.set_nil]
  cases s with
  | var name | function decl | classDef decl | traitDef decl => exact views.put isOpen local_ _ true
  | _ => exact plain

theorem Spaced.push (body : List Stmt) (names : List String) :
    Spaced outer (.scope ⟨body, setNames names⟩ :: τ) (v.push names) (v'.push names) :=
  { views with scopes := congrArg (List.cons _) views.scopes, spaced := congrArg (List.cons _) views.spaced }

theorem Spaced.inClass (context : ClassContext) : Spaced outer τ (v.inClass context) (v'.inClass context) :=
  { views with classBody := rfl }

theorem Spaced.members (superclass : Option NameRef) :
    Spaced outer (methodLevels (.scope thisRegion) superclass τ) (v.members superclass) (v'.members superclass) := by
  cases superclass with
  | none => exact (views.inClass .plainClass).push [] ["this"]
  | some => exact ((views.inClass .subclass).push [] ["super"]).push [] ["this"]

/-- The own methods of a class have a scope with `this` that is counted besides. -/
theorem Spaced.ownMembers (base : Option NameRef) : Spaced outer (methodLevels .own base τ)
    ((v.members base).push ["this"]) ((v'.members base).push ["this"]) :=
  have inside := (views.members base).push [] ["this"]
  { inside with scopes := inside.scopes, spaced := inside.spaced }

theorem Spaced.entered (context : FunctionContext) (params : Option (List Token)) (body : List Stmt) :
    Spaced outer (.scope (functionRegion params body) :: τ) (((v.inFunction context).push []).set (params.getD []))
      (((v'.inFunction context).push []).set (params.getD [])) := by
  have opened (scopes : List Declared) : (setNames [] :: scopes).modifyHead
      (·.putAll ((params.getD []).map fun name => (name.lexeme, true))) =
      (functionRegion params body).names :: scopes := by
    simp [functionRegion, setNames, Bindings.putAll, Function.comp_def]
  exact ⟨(opened v.scopes).trans (congrArg (List.cons _) views.scopes),
    (opened v'.scopes).trans (congrArg (List.cons _) views.spaced), rfl, views.classBody⟩

theorem Spaced.reports_readsThis (keyword : Token) :
    reportsOf (v'.readsThis keyword) = reportsOf (v.readsThis keyword) := by
  rw [View.readsThis, View.readsThis, views.classBody]
  split
  · rfl
  · exact reports_seeks v v' _ keyword

theorem Spaced.reports_readsSuper (keyword : Token) :
    reportsOf (v'.readsSuper keyword) = reportsOf (v.readsSuper keyword) := by
  rw [View.readsSuper, View.readsSuper, views.classBody]
  exact reports_append rfl (reports_seeks v v' _ keyword)

variable (ready : Ready outer)
include ready

theorem Spaced.innermost_iff (name : String) : v'.innermost? name = some false ↔ v.innermost? name = some false := by
  rw [View.innermost?, View.innermost?]
  cases τ with
  | cons => rw [views.head_eq (List.cons_ne_nil _ _)]
  | nil =>
    rw [views.scopes, views.spaced]
    have unknown : ¬ (Bindings.empty : Declared).get? name = some false := fun found => by cases found
    cases outer with
    | nil => exact ⟨fun found => absurd found unknown, fun found => by cases found⟩
    | cons names => exact ⟨fun found => absurd found unknown, fun found => absurd found ((ready names rfl).1 name)⟩

theorem Spaced.reports_reads (name : Token) : reportsOf (v'.reads name) = reportsOf (v.reads name) := by
  refine reports_append ?_ (reports_seeks v v' _ name)
  simp only [reportIf, views.innermost_iff ready]

theorem Spaced.reports_refs (refs : List NameRef) : reportsOf (refsNotes v' refs) = reportsOf (refsNotes v refs) := by
  induction refs with
  | nil => rfl
  | cons ref _ ih => exact reports_append (views.reports_reads ready ref.name) ih

theorem Spaced.reports_extends (name : Token) (superclass : Option NameRef) :
    reportsOf (v'.extends_ name superclass) = reportsOf (v.extends_ name superclass) := by
  cases superclass with
  | none => rfl
  | some base => exact reports_append rfl (views.reports_reads ready base.name)

/-- Wherever `super` is found, the scope right inside of it is shifted with it. -/
theorem Spaced.beside_super (inward : Inward τ name) (isSuper : name = "super") (d : Nat)
    (found : depthOf? v.scopes name = some d) : spacing τ (d - 1) = spacing τ d - 1 := by
  rw [views.scopes] at found
  have between : d ≠ τ.length := by
    rintro rfl
    have length : (namesOf (counted τ)).length = τ.length + surplus τ := by rw [namesOf, List.length_map, length_counted]
    by_cases inside : τ.length < (namesOf (counted τ)).length
    · exact absurd (inward _ (depthOf?_inner found inside)) (lt_irrefl _)
    · have here : τ.length = (namesOf (counted τ)).length + 0 := by omega
      rw [here] at found
      obtain ⟨names, first, contained⟩ := contains_outer found
      rw [isSuper, (ready names (by rw [Option.mem_def, List.head?_eq_getElem?, first])).2] at contained
      cases contained
  rw [spacing_apply, spacing_apply]
  by_cases inside : d < τ.length
  · rw [if_pos inside, if_pos (by omega)]
  · rw [if_neg inside, if_neg (by omega)]
    omega

end

/-! ### Expressions -/

section
variable {source : Token → Prop} {outer : List Declared} {τ : Levels} {v v' : View} (spelled : Spelled source)
  (ready : Ready outer) (views : Spaced outer τ v v')
include spelled ready views

set_option linter.unusedSectionVars false in
mutual

/-- An expression inside one more scope, by induction on it. -/
theorem spaced_expr : ∀ e : Expr, e.Parsed source → AllInward (placed τ (exprMentions e)) →
    Expr.Shifted (spacing τ) (fillExpr v e) (fillExpr v' e) ∧ reportsOf (exprNotes v' e) = reportsOf (exprNotes v e)
  | .binary left op right, parsed, inward => by
    obtain ⟨first, second⟩ := allInward_placed_append.mp inward
    exact reports_pair (.binary op) (spaced_expr left parsed.1 first) (spaced_expr right parsed.2 second)
  | .logical left op right, parsed, inward => by
    obtain ⟨first, second⟩ := allInward_placed_append.mp inward
    exact reports_pair (.logical op) (spaced_expr left parsed.1 first) (spaced_expr right parsed.2 second)
  | .unary op operand, parsed, inward => (spaced_expr operand parsed inward).imp_left (.unary op)
  | .conditional condition yes no, parsed, inward => by
    obtain ⟨both, third⟩ := allInward_placed_append.mp inward
    obtain ⟨first, second⟩ := allInward_placed_append.mp both
    have branches := reports_pair And.intro (spaced_expr yes parsed.2.1 second) (spaced_expr no parsed.2.2 third)
    exact reports_pair (fun test branches => .conditional test branches.1 branches.2) (spaced_expr condition parsed.1 first)
      branches
  | .grouping inner, parsed, inward => (spaced_expr inner parsed inward).imp_left .grouping
  | .literal value, _, _ => ⟨.literal value, rfl⟩
  | .var name _, _, inward => by
    rw [fillExpr, fillExpr, views.depth_eq (allInward_single inward rfl)]
    exact ⟨.var name _, views.reports_reads ready name⟩
  | .assign name value _, parsed, inward => by
    obtain ⟨first, here⟩ := allInward_placed_append.mp inward
    obtain ⟨one, reports⟩ := spaced_expr value parsed.2 first
    rw [fillExpr, fillExpr, views.depth_eq (allInward_single here rfl)]
    exact ⟨.assign name one _, reports_append reports (reports_seeks v v' _ name)⟩
  | .call callee paren args, parsed, inward => by
    obtain ⟨first, others⟩ := allInward_placed_append.mp inward
    exact reports_pair (.call paren) (spaced_expr callee parsed.1 first) (spaced_exprs args parsed.2 others)
  | .get object name, parsed, inward => (spaced_expr object parsed inward).imp_left (.get · name)
  | .set object name value, parsed, inward => by
    obtain ⟨first, second⟩ := allInward_placed_append.mp inward
    exact reports_pair (fun one target => .set target name one) (spaced_expr value parsed.2 first)
      (spaced_expr object parsed.1 second)
  | .this keyword _, _, inward => by
    rw [fillExpr, fillExpr, views.thisDepth_eq (allInward_single inward rfl)]
    exact ⟨.this keyword _, views.reports_readsThis keyword⟩
  | .super keyword method _, parsed, inward => by
    have inside : Inward τ keyword.lexeme := allInward_single inward rfl
    have isSuper := spelled.super_ keyword parsed.2 parsed.1
    rw [fillExpr, fillExpr, views.depth_eq inside]
    exact ⟨.super keyword method (views.beside_super ready inside isSuper), views.reports_readsSuper keyword⟩
  | .missing, parsed, _ => parsed.elim

theorem spaced_exprs : ∀ es : List Expr, Expr.AllParsed source es → AllInward (placed τ (exprsMentions es)) →
    Expr.AllShifted (spacing τ) (fillExprs v es) (fillExprs v' es) ∧
      reportsOf (exprsNotes v' es) = reportsOf (exprsNotes v es)
  | [], _, _ => ⟨.nil, rfl⟩
  | e :: rest, parsed, inward => by
    obtain ⟨first, others⟩ := allInward_placed_append.mp inward
    exact reports_pair .cons (spaced_expr e parsed.1 first) (spaced_exprs rest parsed.2 others)

end

theorem spaced_option (e : Option Expr) (parsed : Expr.OptionParsed source e)
    (inward : AllInward (placed τ (optionMentions e))) :
    Expr.OptionShifted (spacing τ) (e.map (fillExpr v)) (e.map (fillExpr v')) ∧
      reportsOf (optionNotes v' e) = reportsOf (optionNotes v e) := by
  cases e with
  | none => exact ⟨.none, rfl⟩
  | some e => exact (spaced_expr spelled ready views e (parsed e rfl) inward).imp_left .some

end

/-! ### Statements -/

section
variable {source : Token → Prop} {outer : List Declared} (spelled : Spelled source) (ready : Ready outer)
include spelled ready

set_option linter.unusedSectionVars false in
mutual

/-- A statement inside one more scope, by induction on it. A declaration is never right in the scope that is added. -/
theorem spaced_stmt : ∀ (s : Stmt) {τ : Levels} {v v' : View},
    s.Parsed source → (τ = [] → s.isPlain = true) → Open τ → AllInward (stmtMentions τ s) → Spaced outer τ v v' →
      Stmt.Shifted (spacing τ) (fillStmt v s) (fillStmt v' s) ∧ reportsOf (stmtNotes v' s) = reportsOf (stmtNotes v s)
  | .expression value, τ, v, v', parsed, _, _, inward, views =>
    (spaced_expr spelled ready views value parsed inward).imp_left .expression
  | .print value, τ, v, v', parsed, _, _, inward, views =>
    (spaced_expr spelled ready views value parsed inward).imp_left .print
  | .var name init, τ, v, v', parsed, plain, isOpen, inward, views => by
    have local_ : τ ≠ [] := fun top => by cases plain top
    have declared := declares_congr (views.head_eq local_) [name]
    obtain ⟨one, reports⟩ := spaced_option spelled ready (views.put isOpen local_ name false) init parsed.2 inward
    rw [spacing_declaringIn] at one
    exact ⟨.var (spacing_zero local_) name one, reports_append (congrArg reportsOf declared) reports⟩
  | .block body, τ, v, v', parsed, _, _, inward, views => by
    have inside := spaced_stmts body parsed (List.cons_ne_nil _ _) (open_scope _ τ) inward (views.push body [])
    rw [spacing_cons] at inside
    exact inside.imp_left .block
  | .ifElse test yes none, τ, v, v', parsed, _, isOpen, inward, views => by
    obtain ⟨first, second⟩ := allInward_append.mp inward
    obtain ⟨test, reports⟩ := spaced_expr spelled ready views test parsed.1 first
    obtain ⟨yes, others⟩ := spaced_stmt yes parsed.2.2 (fun _ => parsed.2.1) isOpen second views
    exact ⟨.ifThen test yes, reports_append reports others⟩
  | .ifElse test yes (some no), τ, v, v', parsed, _, isOpen, inward, views => by
    obtain ⟨both, third⟩ := allInward_append.mp inward
    obtain ⟨first, second⟩ := allInward_append.mp both
    obtain ⟨whole, ⟨plain, parsedThen⟩, plainElse, parsedElse⟩ := parsed
    obtain ⟨test, reports⟩ := spaced_expr spelled ready views test whole first
    obtain ⟨yes, others⟩ := spaced_stmt yes parsedThen (fun _ => plain) isOpen second views
    obtain ⟨no, last⟩ := spaced_stmt no parsedElse (fun _ => plainElse) isOpen third views
    exact ⟨.ifElse test yes no, reports_append reports (reports_append others last)⟩
  | .whileLoop test body, τ, v, v', parsed, _, isOpen, inward, views => by
    obtain ⟨first, second⟩ := allInward_append.mp inward
    obtain ⟨test, reports⟩ := spaced_expr spelled ready views test parsed.1 first
    obtain ⟨inner, others⟩ := spaced_stmt body parsed.2.2 (fun _ => parsed.2.1) isOpen second views
    exact ⟨.whileLoop test inner, reports_append reports others⟩
  | .breakLoop, τ, v, v', _, _, _, _, _ => ⟨.breakLoop, rfl⟩
  | .returnValue keyword value, τ, v, v', parsed, _, _, inward, views => by
    obtain ⟨one, reports⟩ := spaced_option spelled ready views value parsed inward
    refine ⟨.returnValue keyword one, reports_append ?_ reports⟩
    rw [View.returns, View.returns, views.function]
  | .function ⟨name, params, body⟩, τ, v, v', parsed, plain, isOpen, inward, views => by
    have local_ : τ ≠ [] := fun top => by cases plain top
    have declared := declares_congr (views.head_eq local_) [name]
    obtain ⟨inner, reports⟩ := spaced_function ⟨name, params, body⟩ .function parsed inward
      (views.put isOpen local_ name true)
    rw [spacing_declaringIn] at inner
    exact ⟨.function (spacing_zero local_) inner, reports_append (congrArg reportsOf declared) reports⟩
  | .classDef ⟨name, superclass, methods, classMethods, traits⟩, τ, v, v', parsed, plain, isOpen, inward, views => by
    have local_ : τ ≠ [] := fun top => by cases plain top
    have declared := declares_congr (views.head_eq local_) [name]
    have named : Spaced outer _ (v.set [name]) (v'.set [name]) := views.put isOpen local_ name true
    obtain ⟨front, last⟩ := allInward_append.mp inward
    obtain ⟨before, third⟩ := allInward_append.mp front
    obtain ⟨first, -⟩ := allInward_append.mp before
    have based : superclass.map (located (v'.set [name]).scopes) =
        (superclass.map (located (v.set [name]).scopes)).map (NameRef.shift (spacing τ)) := by
      cases superclass with
      | none => rfl
      | some base =>
        have inside : Inward τ base.name.lexeme := allInward_single first rfl
        rw [← spacing_declaringIn name.lexeme true τ]
        exact congrArg some (named.located_eq (inside.declaringIn isOpen local_ _ _))
    obtain ⟨inner, reports⟩ := spaced_functions methods methodContext parsed.2.2.1 third (named.members superclass)
    obtain ⟨own, others⟩ := spaced_functions classMethods (fun _ => .method) parsed.2.2.2 last
      (named.ownMembers superclass)
    have around : underBase (superclass.map (located (v.set [name]).scopes)) (spacing τ) =
        underBase superclass (spacing τ) := by rw [underBase, underBase, Option.isSome_map]
    rw [spacing_methodLevels, spacing_declaringIn, ← around] at inner own
    -- The traits of a class have no depths, so there is nothing to shift.
    have kept : traits.map (NameRef.shift (underBase (superclass.map (located (v.set [name]).scopes)) (spacing τ))) =
        traits := by
      refine List.map_congr_left (g := id) ?_ |>.trans (List.map_id traits)
      rintro ⟨name, depth⟩ member
      obtain rfl : depth = none := parsed.2.1 _ member
      rfl
    have shifted := Stmt.Shifted.classDef (spacing_zero local_) name _ traits inner own
    rw [kept, ← based] at shifted
    exact ⟨shifted, reports_append (congrArg reportsOf declared)
      (reports_append (named.reports_extends ready name superclass) (reports_append reports others))⟩
  | .traitDef ⟨name, traits, methods⟩, τ, v, v', parsed, plain, isOpen, inward, views => by
    have local_ : τ ≠ [] := fun top => by cases plain top
    have declared := declares_congr (views.head_eq local_) [name]
    have named : Spaced outer _ (v.set [name]) (v'.set [name]) := views.put isOpen local_ name true
    obtain ⟨first, second⟩ := allInward_append.mp inward
    have included : traits.map (located (v'.set [name]).scopes) =
        (traits.map (located (v.set [name]).scopes)).map (NameRef.shift (spacing τ)) := by
      rw [List.map_map, ← spacing_declaringIn name.lexeme true τ]
      refine List.map_congr_left fun ref member => named.located_eq ?_
      exact first (_, refMention false ref) (List.mem_map_of_mem (List.mem_map_of_mem member)) rfl
    obtain ⟨inner, reports⟩ := spaced_functions methods (fun _ => .method) parsed.2 second
      ((named.inClass .trait).push [] ["this"])
    rw [spacing_cons, spacing_declaringIn] at inner
    have shifted := Stmt.Shifted.traitDef (spacing_zero local_) name (traits.map (located (v.set [name]).scopes)) inner
    rw [← included] at shifted
    exact ⟨shifted, reports_append (congrArg reportsOf declared)
      (reports_append (named.reports_refs ready traits) reports)⟩
  | .missing, τ, _, _, parsed, _, _, _, _ => parsed.elim
termination_by structural s => s

theorem spaced_stmts : ∀ (body : List Stmt) {τ : Levels}
    {v v' : View}, Stmt.AllParsed source body → τ ≠ [] → Open τ → AllInward (stmtsMentions τ body) →
    Spaced outer τ v v' → Stmt.AllShifted (spacing τ) (fillStmts v body) (fillStmts v' body) ∧
      reportsOf (stmtsNotes v' body) = reportsOf (stmtsNotes v body)
  | [], τ, v, v', _, _, _, _, _ => ⟨.nil, rfl⟩
  | s :: rest, τ, v, v', parsed, local_, isOpen, inward, views => by
    obtain ⟨first, second⟩ := allInward_append.mp inward
    have behind : behindIn s τ ≠ [] ∧ spacing (behindIn s τ) = spacing τ := by
      unfold behindIn
      split
      · exact ⟨declaringIn_ne_nil local_ _ _, spacing_declaringIn _ _ τ⟩
      · exact ⟨local_, rfl⟩
    obtain ⟨one, reports⟩ := spaced_stmt s parsed.1 (fun top => absurd top local_) isOpen first views
    obtain ⟨all, others⟩ := spaced_stmts rest parsed.2 behind.1 (isOpen.behindIn s) second
      (views.behind isOpen local_ s)
    rw [behind.2] at all
    exact ⟨.cons one all, reports_append reports others⟩
termination_by structural body => body

theorem spaced_function : ∀ (f : FunDecl)
    (context : FunctionContext) {τ : Levels} {v v' : View}, f.Parsed source → AllInward (functionMentions τ f) →
    Spaced outer τ v v' → FunDecl.Shifted (spacing τ) (fillFunction v context f) (fillFunction v' context f) ∧
      reportsOf (functionNotes v' context f) = reportsOf (functionNotes v context f)
  | ⟨name, params, body⟩, context, τ, v, v', parsed, inward, views => by
    obtain ⟨inner, reports⟩ := spaced_stmts body parsed.2.2 (List.cons_ne_nil _ _) (open_scope _ τ) inward
      (views.entered context params body)
    have same : ((v'.inFunction context).push []).scopes.head? = ((v.inFunction context).push []).scopes.head? := rfl
    rw [spacing_cons] at inner
    exact ⟨.mk name params inner, reports_append (congrArg reportsOf (declares_congr same _)) reports⟩
termination_by structural f => f

theorem spaced_functions : ∀ (fs : List FunDecl)
    (kind : Token → FunctionContext) {τ : Levels} {v v' : View}, FunDecl.AllParsed source fs →
    AllInward (functionsMentions τ fs) → Spaced outer τ v v' →
    FunDecl.AllShifted (spacing τ) (fillFunctions v kind fs) (fillFunctions v' kind fs) ∧
      reportsOf (functionsNotes v' kind fs) = reportsOf (functionsNotes v kind fs)
  | [], kind, τ, v, v', _, _, _ => ⟨.nil, rfl⟩
  | f :: rest, kind, τ, v, v', parsed, inward, views => by
    obtain ⟨first, second⟩ := allInward_append.mp inward
    obtain ⟨one, reports⟩ := spaced_function f (kind f.name) parsed.1 first views
    obtain ⟨all, others⟩ := spaced_functions rest kind parsed.2 second views
    exact ⟨.cons one all, reports_append reports others⟩
termination_by structural fs => fs

end

end

end Scope

end LoxLang
