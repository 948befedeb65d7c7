import LoxLang.Proofs.Accepted

/-!
Resolving checks the rules. Every program that is read is resolved, and what is reported are exactly the places that break
a rule.
-/

namespace LoxLang.Scope

/-! ### What the places report -/

/-- The reports about a place. -/
def Site.offences (site : Site) : Set (ScopeError × Token) := {e | site.Offends e.1 e.2}

def offences (sites : List Site) : Set (ScopeError × Token) := {e | ∃ site ∈ sites, site.Offends e.1 e.2}

/-- The reports about names that are declared in a scope with some names in it. Nothing is reported globally. -/
def redeclared (around : List Enclosure) (seen : List String) (names : List Token) : Set (ScopeError × Token) :=
  {e | around ≠ [] ∧ e.1 = .alreadyDeclared ∧ Repeats seen names e.2}

@[simp]
theorem offences_nil : offences [] = ∅ := by simp [offences]

theorem offences_cons (site : Site) (rest : List Site) : offences (site :: rest) = site.offences ∪ offences rest := by
  ext e
  simp [offences, Site.offences]

@[simp]
theorem offences_append (left right : List Site) : offences (left ++ right) = offences left ∪ offences right := by
  induction left with
  | nil => simp
  | cons _ _ ih => simp [offences_cons, ih, Set.union_assoc]

theorem not_repeats_nil (seen : List String) (name : Token) : ¬ Repeats seen [] name := by
  rintro ⟨earlier, later, split, -⟩
  simp at split

theorem repeats_cons (seen : List String) (first : Token) (rest : List Token) (name : Token) :
    Repeats seen (first :: rest) name ↔
      (name = first ∧ first.lexeme ∈ seen) ∨ Repeats (seen ++ [first.lexeme]) rest name := by
  constructor
  · rintro ⟨earlier, later, split, again⟩
    cases earlier with
    | nil =>
      obtain ⟨rfl, -⟩ := List.cons.inj split
      exact .inl ⟨rfl, by simpa using again⟩
    | cons _ earlier =>
      obtain ⟨rfl, rest_eq⟩ := List.cons.inj split
      exact .inr ⟨earlier, later, rest_eq, by simpa using again⟩
  · rintro (⟨rfl, again⟩ | ⟨earlier, later, rfl, again⟩)
    · exact ⟨[], rest, rfl, by simpa using again⟩
    · exact ⟨first :: earlier, later, rfl, by simpa using again⟩

theorem repeats_append (seen : List String) (left right : List Token) (name : Token) :
    Repeats seen (left ++ right) name ↔
      Repeats seen left name ∨ Repeats (seen ++ left.map Token.lexeme) right name := by
  induction left generalizing seen with
  | nil => simp [not_repeats_nil]
  | cons _ _ ih => simp [repeats_cons, ih, or_assoc]

@[simp]
theorem redeclared_nil (around : List Enclosure) (seen : List String) : redeclared around seen [] = ∅ := by
  ext e
  simp [redeclared, not_repeats_nil]

theorem redeclared_append (around : List Enclosure) (seen : List String) (left right : List Token) :
    redeclared around seen (left ++ right) =
      redeclared around seen left ∪ redeclared around (seen ++ left.map Token.lexeme) right := by
  ext e
  simp only [redeclared, repeats_append, Set.mem_ofPred_eq, Set.mem_union]
  tauto

/-- No rule is about the node. -/
def Node.isSilent : Node → Bool
  | .expr (.var ..) | .expr (.this ..) | .expr (.super ..) => false
  | .stmt (.returnValue ..) | .stmt (.classDef _) | .stmt (.block _) | .function _ => false
  | _ => true

theorem offences_of_isSilent {around : List Enclosure} {node : Node} (silent : node.isSilent = true) (rest : List Site) :
    offences (⟨around, node⟩ :: rest) = offences rest := by
  have nothing : Site.offences ⟨around, node⟩ = ∅ := by
    ext ⟨error, name⟩
    refine ⟨fun offends => ?_, fun impossible => impossible.elim⟩
    cases offends with
    | declaredTwice again =>
      unfold Node.declares at again
      split at again
      · cases silent
      · cases silent
      · exact not_repeats_nil _ _ again
    | _ => cases silent
  rw [offences_cons, nothing, Set.empty_union]

theorem offences_scope {around : List Enclosure} {node : Node}
    (isScope : (∃ body, node = .stmt (.block body)) ∨ ∃ decl, node = .function decl) (e : Enclosure) :
    Site.offences ⟨around, node⟩ = redeclared (e :: around) [] node.declares := by
  ext ⟨error, name⟩
  rcases isScope with ⟨body, rfl⟩ | ⟨decl, rfl⟩ <;> simp [Site.offences, Site.offends_iff, redeclared, and_comm]

/-! ### What resolving reports -/

/-- The reports among some notes. -/
def reportSet (notes : List Note) : Set (ScopeError × Token) := {e | e ∈ reportsOf notes}

section
variable {v : View}

@[simp]
theorem reportSet_nil : reportSet [] = ∅ := by
  ext e
  simp [reportSet, reportsOf]

@[simp]
theorem reportSet_append (left right : List Note) : reportSet (left ++ right) = reportSet left ∪ reportSet right := by
  ext e
  simp [reportSet]

theorem reportSet_reportIf (wrong : Prop) [Decidable wrong] (error : ScopeError) (token : Token) :
    reportSet (reportIf wrong error token) = {e | wrong ∧ e = (error, token)} := by
  by_cases holds : wrong <;> simp [reportSet, reportIf, reportsOf, Note.report?, holds]

theorem reportSet_seeks (occurrence : Occurrence) (name : Token) : reportSet (v.seeks occurrence name) = ∅ := by
  have quiet : Quiet (v.seeks occurrence name) := quiet_seeks occurrence name
  rw [reportSet, quiet]
  ext e
  simp

theorem reportSet_reads (name : Token) :
    reportSet (v.reads name) = {e | v.innermost? name.lexeme = some false ∧ e = (.readInOwnInitializer, name)} := by
  rw [View.reads, reportSet_append, reportSet_reportIf, reportSet_seeks, Set.union_empty]

theorem reportSet_readsThis (keyword : Token) :
    reportSet (v.readsThis keyword) = {e | v.classBody = .none ∧ e = (.thisOutsideClass, keyword)} := by
  rw [View.readsThis]
  by_cases outside : v.classBody = .none
  · ext e
    simp [outside, reportSet, reportsOf, Note.report?]
  · rw [if_neg outside, reportSet_seeks]
    simp [outside]

theorem reportSet_readsSuper (keyword : Token) :
    reportSet (v.readsSuper keyword) = {e | superError? v.classBody = some e.1 ∧ e.2 = keyword} := by
  rw [View.readsSuper, reportSet_append, reportSet_seeks, Set.union_empty]
  ext ⟨error, token⟩
  cases superError? v.classBody <;> simp [reportSet, reportsOf, Note.report?, eq_comm]

end

/-! ### Contexts -/

def Role.context : Role → Token → FunctionContext
  | .function, _ => .function
  | .method, name => methodContext name
  | .ownMethod, _ | .traitMethod, _ => .method

/-- The innermost function around a place. -/
def functionContext (around : List Enclosure) : FunctionContext :=
  match around.find? Enclosure.isFunction with
  | some (.function role name) => role.context name
  | _ => .none

/-- The innermost class or trait around a place. -/
def classContext (around : List Enclosure) : ClassContext :=
  match around.find? Enclosure.isBody with
  | some (.classBody base) => bodyOf base
  | some .traitBody => .trait
  | _ => .none

section
variable {around : List Enclosure}

theorem Role.context_eq_initializer {role : Role} {name : Token} :
    role.context name = .initializer ↔ role = .method ∧ name.lexeme = initName := by
  cases role <;> simp [Role.context, methodContext]

theorem Role.context_ne_none (role : Role) (name : Token) : role.context name ≠ .none := by
  cases role with
  | method => by_cases isInit : name.lexeme = initName <;> simp [Role.context, methodContext, isInit]
  | _ => simp [Role.context]

theorem functionContext_eq_none : functionContext around = .none ↔ ∀ e ∈ around, e.isFunction = false := by
  unfold functionContext
  cases found : around.find? Enclosure.isFunction with
  | none => simpa using List.find?_eq_none.mp found
  | some e =>
    have isFunction := List.find?_some found
    have inside : ¬ ∀ e ∈ around, e.isFunction = false := fun outside => by
      simp [outside e (List.mem_of_find?_eq_some found)] at isFunction
    cases e with
    | function role name => exact iff_of_false (role.context_ne_none name) inside
    | _ => cases isFunction

theorem functionContext_eq_initializer : functionContext around = .initializer ↔
    ∃ name, around.find? Enclosure.isFunction = some (.function .method name) ∧ name.lexeme = initName := by
  unfold functionContext
  split
  · rename_i role name found
    simp only [found, Role.context_eq_initializer, Option.some.injEq, Enclosure.function.injEq]
    constructor
    · rintro ⟨rfl, isInit⟩
      exact ⟨name, ⟨rfl, rfl⟩, isInit⟩
    · rintro ⟨_, ⟨rfl, rfl⟩, isInit⟩
      exact ⟨rfl, isInit⟩
  · rename_i other
    constructor
    · intro impossible
      cases impossible
    · rintro ⟨name, found, -⟩
      exact absurd found (other .method name)

theorem classContext_eq_none : classContext around = .none ↔ ∀ e ∈ around, e.isBody = false := by
  unfold classContext
  cases found : around.find? Enclosure.isBody with
  | none => simpa using List.find?_eq_none.mp found
  | some e =>
    have isBody := List.find?_some found
    have inside : ¬ ∀ e ∈ around, e.isBody = false := fun outside => by
      simp [outside e (List.mem_of_find?_eq_some found)] at isBody
    cases e with
    | classBody base => exact iff_of_false (by cases base <;> simp [bodyOf]) inside
    | traitBody => exact iff_of_false (by simp) inside
    | _ => cases isBody

/-- The name is that of the local variable in whose initializer a place stands. -/
def InOwnInitializer (around : List Enclosure) (name : String) : Prop :=
  ∃ own outer, around = .initializer own :: outer ∧ outer ≠ [] ∧ own.lexeme = name

theorem offences_var (name : Token) (depth : Option Nat) :
    Site.offences ⟨around, .expr (.var name depth)⟩ =
      {e | InOwnInitializer around name.lexeme ∧ e = (.readInOwnInitializer, name)} := by
  ext ⟨error, token⟩
  simp [Site.offences, Site.offends_iff, Node.declares, not_repeats_nil, InOwnInitializer]
  grind

theorem offences_this (keyword : Token) (depth : Option Nat) :
    Site.offences ⟨around, .expr (.this keyword depth)⟩ =
      {e | classContext around = .none ∧ e = (.thisOutsideClass, keyword)} := by
  ext ⟨error, token⟩
  simp [Site.offences, Site.offends_iff, Node.declares, not_repeats_nil, classContext_eq_none]
  grind

theorem offences_super (keyword method : Token) (depth : Option Nat) :
    Site.offences ⟨around, .expr (.super keyword method depth)⟩ =
      {e | superError? (classContext around) = some e.1 ∧ e.2 = keyword} := by
  ext ⟨error, token⟩
  constructor
  · intro offends
    cases offends with
    | superOutside outside => exact ⟨by rw [classContext_eq_none.mpr outside]; rfl, rfl⟩
    | superInTrait inside => exact ⟨by rw [classContext, inside]; rfl, rfl⟩
    | superInClass inside => exact ⟨by rw [classContext, inside]; rfl, rfl⟩
    | declaredTwice again => exact absurd again (not_repeats_nil _ _)
  · rintro ⟨wrong, rfl⟩
    cases found : around.find? Enclosure.isBody with
    | none =>
      rw [classContext, found] at wrong
      cases wrong
      exact .superOutside (by simpa using List.find?_eq_none.mp found)
    | some e =>
      rw [classContext, found] at wrong
      have isBody := List.find?_some found
      cases e with
      | classBody superclass =>
        cases superclass with
        | none =>
          cases wrong
          exact .superInClass found
        | some => cases wrong
      | traitBody =>
        cases wrong
        exact .superInTrait found
      | _ => cases isBody

theorem offences_return (keyword : Token) (value : Option Expr) :
    Site.offences ⟨around, .stmt (.returnValue keyword value)⟩ =
      {e | functionContext around = .none ∧ e = (.returnOutsideFunction, keyword)} ∪
        {e | (value.isSome = true ∧ functionContext around = .initializer) ∧ e = (.valueFromInitializer, keyword)} := by
  ext ⟨error, token⟩
  simp [Site.offences, Site.offends_iff, Node.declares, not_repeats_nil, functionContext_eq_none,
    functionContext_eq_initializer, Option.isSome_iff_exists]
  grind

theorem offences_class (decl : ClassDecl) :
    Site.offences ⟨around, .stmt (.classDef decl)⟩ =
      {e | ∃ base, decl.superclass = some base ∧ decl.name.lexeme = base.name.lexeme ∧
        e = (.inheritsFromItself, base.name)} := by
  ext ⟨error, token⟩
  simp [Site.offences, Site.offends_iff, Node.declares, not_repeats_nil]
  grind

end

/-! ### Views of places -/

/-- The view fits an expression at a place. -/
structure View.Reads (around : List Enclosure) (v : View) : Prop where
  classBody : v.classBody = classContext around
  unset : ∀ name, v.innermost? name = some false ↔ InOwnInitializer around name

/-- The innermost scope at a place has some names, which are set. Only the global scope is not among the scopes. -/
structure Knows (around : List Enclosure) (seen : List String) (scopes : List Declared) : Prop where
  global : scopes = [] ↔ around = []
  names : ∀ scope ∈ scopes.head?, ∀ name, scope.get? name = if name ∈ seen then some true else none

/-- The view fits a statement at a place, in the scope of which some names are set. -/
structure View.Fits (around : List Enclosure) (seen : List String) (v : View) : Prop where
  function : v.function = functionContext around
  classBody : v.classBody = classContext around
  knows : Knows around seen v.scopes
  outside : ∀ own outer, around ≠ .initializer own :: outer

section
variable {around : List Enclosure} {seen : List String} {v : View}

theorem Knows.isLocal {scope : Declared} {outer : List Declared} (knows : Knows around seen (scope :: outer)) :
    around ≠ [] := fun isGlobal => by simpa using knows.global.mpr isGlobal

theorem Knows.innermost? (knows : Knows around seen v.scopes) (name : String) :
    v.innermost? name = if around ≠ [] ∧ name ∈ seen then some true else none := by
  obtain ⟨scopes, _, _⟩ := v
  cases scopes with
  | nil => simp [View.innermost?, knows.global.mp rfl]
  | cons scope => simpa [View.innermost?, knows.isLocal] using knows.names scope rfl name

theorem Knows.settled (knows : Knows around seen v.scopes) (name : String) : v.innermost? name ≠ some false := by
  rw [knows.innermost?]
  split <;> simp

theorem Knows.set (knows : Knows around seen v.scopes) (names : List Token) :
    Knows around (seen ++ names.map Token.lexeme) (v.set names).scopes := by
  obtain ⟨scopes, _, _⟩ := v
  cases scopes with
  | nil => exact ⟨knows.global, by simp [View.set]⟩
  | cons inner =>
    refine ⟨iff_of_false (by simp [View.set]) knows.isLocal, fun scope isHead name => ?_⟩
    obtain rfl : inner.putAll _ = scope := by simpa [View.set] using isHead
    have entries : names.map (fun name => (name.lexeme, true)) = (names.map Token.lexeme).map (·, true) := by simp
    rw [entries, get?_putAll_set, knows.names inner rfl]
    by_cases old : name ∈ seen <;> by_cases new : name ∈ names.map Token.lexeme <;> simp [old, new]

theorem Knows.declares (names : List Token) (knows : Knows around seen v.scopes) :
    reportSet (v.declares names) = redeclared around seen names := by
  induction names generalizing v seen with
  | nil => rw [View.declares, reportSet_nil, redeclared_nil]
  | cons name rest ih =>
    have known : (v.innermost? name.lexeme).isSome = true ↔ around ≠ [] ∧ name.lexeme ∈ seen := by
      rw [knows.innermost?]
      split <;> simp [*]
    rw [View.declares, reportSet_append, reportSet_reportIf, ih (knows.set [name])]
    refine Eq.trans ?_ (redeclared_append around seen [name] rest).symm
    congr 1
    ext ⟨error, token⟩
    simp only [known, redeclared, repeats_cons, not_repeats_nil, or_false, Set.mem_ofPred_eq, Prod.mk.injEq]
    tauto

theorem View.Fits.reads (fits : v.Fits around seen) : v.Reads around := by
  refine ⟨fits.classBody, fun name => iff_of_false (fits.knows.settled name) ?_⟩
  rintro ⟨own, outer, inside, -⟩
  exact fits.outside own outer inside

theorem View.Fits.set (fits : v.Fits around seen) (names : List Token) :
    (v.set names).Fits around (seen ++ names.map Token.lexeme) :=
  ⟨fits.function, fits.classBody, fits.knows.set names, fits.outside⟩

theorem View.Fits.initializer (fits : v.Fits around seen) (name : Token) :
    (v.put name false).Reads (.initializer name :: around) := by
  refine ⟨fits.classBody, fun other => ?_⟩
  obtain ⟨scopes, _, _⟩ := v
  cases scopes with
  | nil =>
    have isGlobal := fits.knows.global.mp rfl
    simp [View.innermost?, View.put, InOwnInitializer, isGlobal]
  | cons inner =>
    have isLocal := fits.knows.isLocal
    by_cases same : name.lexeme = other
    · subst same
      simp [View.innermost?, View.put, InOwnInitializer, isLocal, Bindings.get?_put_self]
    · have unset : inner.get? other ≠ some false := fits.knows.settled other
      simp [View.innermost?, View.put, InOwnInitializer, same, Bindings.get?_put_of_ne _ _ (Ne.symm same), unset]

theorem View.fits_push {e : Enclosure} (isFunction : v.function = functionContext (e :: around))
    (inside : v.classBody = classContext (e :: around)) (notInitializer : ∀ own, e ≠ .initializer own) :
    (v.push []).Fits (e :: around) [] := by
  refine ⟨isFunction, inside, ⟨by simp [View.push], fun scope isHead name => ?_⟩, fun own outer same => ?_⟩
  · obtain rfl : setNames [] = scope := by simpa [View.push] using isHead
    exact get?_setNames []
  · exact notInitializer own (List.cons.inj same).1

/-! ### Trees -/

mutual

/-- What is reported in an expression are the offences at its places, by induction on the expression. -/
theorem reports_expr (reads : v.Reads around) : ∀ e : Expr, reportSet (exprNotes v e) = offences (exprSites around e)
  | .binary left _ right | .logical left _ right => by
    rw [exprNotes, exprSites, offences_of_isSilent rfl, offences_append, reportSet_append, reports_expr reads left,
      reports_expr reads right]
  | .unary _ inner | .grouping inner | .get inner _ => by
    rw [exprNotes, exprSites, offences_of_isSilent rfl, reports_expr reads inner]
  | .conditional test yes no => by
    rw [exprNotes, exprSites, offences_of_isSilent rfl, offences_append, offences_append, Set.union_assoc,
      reportSet_append, reportSet_append, reports_expr reads test, reports_expr reads yes,
      reports_expr reads no]
  | .literal _ => by rw [exprNotes, exprSites, offences_of_isSilent rfl, offences_nil, reportSet_nil]
  | .missing => by rw [exprNotes, exprSites, offences_nil, reportSet_nil]
  | .var name depth => by
    rw [exprNotes, exprSites, offences_cons, offences_var, offences_nil, Set.union_empty, reportSet_reads]
    simp only [reads.unset]
  | .assign _ value _ => by
    rw [exprNotes, exprSites, offences_of_isSilent rfl, reportSet_append, reportSet_seeks, Set.union_empty,
      reports_expr reads value]
  | .call callee _ args => by
    rw [exprNotes, exprSites, offences_of_isSilent rfl, offences_append, reportSet_append, reports_expr reads callee,
      reports_exprs reads args]
  | .set object _ value => by
    rw [exprNotes, exprSites, offences_of_isSilent rfl, offences_append, reportSet_append, Set.union_comm,
      reports_expr reads value, reports_expr reads object]
  | .this keyword depth => by
    rw [exprNotes, exprSites, offences_cons, offences_this, offences_nil, Set.union_empty, reportSet_readsThis,
      reads.classBody]
  | .super keyword method depth => by
    rw [exprNotes, exprSites, offences_cons, offences_super, offences_nil, Set.union_empty, reportSet_readsSuper,
      reads.classBody]

theorem reports_exprs (reads : v.Reads around) : ∀ es : List Expr,
    reportSet (exprsNotes v es) = offences (exprsSites around es)
  | [] => by rw [exprsNotes, exprsSites, offences_nil, reportSet_nil]
  | e :: rest => by
    rw [exprsNotes, exprsSites, offences_append, reportSet_append, reports_expr reads e, reports_exprs reads rest]

end

theorem reports_option (reads : v.Reads around) (e : Option Expr) :
    reportSet (optionNotes v e) = offences (optionSites around e) := by
  cases e with
  | none => exact reportSet_nil.trans offences_nil.symm
  | some value => exact reports_expr reads value

theorem reports_refs (settled : ∀ name, v.innermost? name ≠ some false) (refs : List NameRef) :
    reportSet (refsNotes v refs) = ∅ := by
  induction refs with
  | nil => exact reportSet_nil
  | cons _ _ ih =>
    rw [refsNotes, List.flatMap_cons, reportSet_append, reportSet_reads, ← refsNotes, ih]
    simp [settled]

theorem reports_superclass (settled : ∀ name, v.innermost? name ≠ some false) (name : Token)
    (superclass : Option NameRef) : reportSet (v.extends_ name superclass) =
      {e | ∃ base, superclass = some base ∧ name.lexeme = base.name.lexeme ∧ e = (.inheritsFromItself, base.name)} := by
  cases superclass with
  | none => simp [View.extends_]
  | some => simp [View.extends_, reportSet_reportIf, reportSet_reads, settled]

theorem reports_plain {s : Stmt} {notes : List Note} {R : Set (ScopeError × Token)} (plain : s.isPlain = true) :
    reportSet notes = R ∪ redeclared around seen (declaredNames s) ↔ reportSet notes = R := by
  rw [declaredNames_of_isPlain plain, redeclared_nil, Set.union_empty]

end

section
variable {source : Token → Prop}

mutual

/-- What is reported in a statement are the offences at its places, and its name if the scope around has it already, by
induction on the statement. -/
theorem reports_stmt : ∀ s : Stmt, s.Parsed source → ∀ {around : List Enclosure} {seen : List String} {v : View},
    v.Fits around seen →
      reportSet (stmtNotes v s) = offences (stmtSites around s) ∪ redeclared around seen (declaredNames s)
  | .expression value, _, around, seen, v, fits | .print value, _, around, seen, v, fits => by
    rw [reports_plain rfl, stmtNotes, stmtSites, offences_of_isSilent rfl, reports_expr fits.reads]
  | .var name init, _, around, seen, v, fits => by
    rw [stmtNotes, stmtSites, offences_of_isSilent rfl, reportSet_append, fits.knows.declares,
      reports_option (fits.initializer name), Set.union_comm]
    rfl
  | .block body, parsed, around, seen, v, fits => by
    have inside : (v.push []).Fits (.block :: around) [] := View.fits_push fits.function fits.classBody nofun
    rw [reports_plain rfl, stmtNotes, stmtSites, offences_cons, offences_scope (.inl ⟨body, rfl⟩) .block,
      reports_stmts body parsed inside, Set.union_comm]
    rfl
  | .ifElse test yes none, parsed, around, seen, v, fits => by
    have yes := (reports_plain parsed.2.1).mp (reports_stmt yes parsed.2.2 fits)
    rw [reports_plain rfl, stmtNotes, stmtSites, offences_of_isSilent rfl, offences_append, reportSet_append, yes,
      reports_expr fits.reads]
  | .ifElse test yes (some no), parsed, around, seen, v, fits => by
    have yes := (reports_plain parsed.2.1.1).mp (reports_stmt yes parsed.2.1.2 fits)
    have no := (reports_plain parsed.2.2.1).mp (reports_stmt no parsed.2.2.2 fits)
    rw [reports_plain rfl, stmtNotes, stmtSites, offences_of_isSilent rfl, offences_append, offences_append,
      Set.union_assoc, reportSet_append, reportSet_append, yes, no, reports_expr fits.reads]
  | .whileLoop test body, parsed, around, seen, v, fits => by
    have turn := (reports_plain parsed.2.1).mp (reports_stmt body parsed.2.2 fits)
    rw [reports_plain rfl, stmtNotes, stmtSites, offences_of_isSilent rfl, offences_append, reportSet_append, turn,
      reports_expr fits.reads]
  | .breakLoop, _, around, seen, v, fits => by
    rw [reports_plain rfl, stmtNotes, stmtSites, offences_of_isSilent rfl, offences_nil, reportSet_nil]
  | .returnValue keyword value, _, around, seen, v, fits => by
    rw [reports_plain rfl, stmtNotes, stmtSites, offences_cons, offences_return, reportSet_append, View.returns,
      reportSet_append, reportSet_reportIf, reportSet_reportIf, reports_option fits.reads, fits.function]
  | .function f, parsed, around, seen, v, fits => by
    rw [stmtNotes, stmtSites, offences_of_isSilent rfl, reportSet_append, fits.knows.declares, Set.union_comm,
      ← reports_function .function f parsed (fits.set [f.name]).classBody]
    rfl
  | .classDef ⟨name, superclass, methods, classMethods, traits⟩, parsed, around, seen, v, fits => by
    have inside : ((v.set [name]).members superclass).classBody = classContext (.classBody superclass :: around) := by
      cases superclass <;> rfl
    have base := reports_superclass (fits.knows.set [name]).settled name superclass
    have members := reports_functions .method methods parsed.2.2.1 inside
    have own := reports_functions (v := ((v.set [name]).members superclass).push ["this"]) .ownMethod classMethods
      parsed.2.2.2 inside
    rw [stmtSites, offences_cons, offences_class, offences_append, ← members, ← own, ← base, stmtNotes, reportSet_append,
      reportSet_append, reportSet_append, fits.knows.declares, Set.union_comm]
    rfl
  | .traitDef ⟨name, traits, methods⟩, parsed, around, seen, v, fits => by
    have inside : (((v.set [name]).inClass .trait).push ["this"]).classBody = classContext (.traitBody :: around) := rfl
    have members := reports_functions .traitMethod methods parsed.2 inside
    rw [stmtSites, offences_of_isSilent rfl, ← members, stmtNotes, reportSet_append, reportSet_append,
      fits.knows.declares, reports_refs (fits.knows.set [name]).settled, Set.empty_union, Set.union_comm]
    rfl
  | .missing, parsed, _, _, _, _ => parsed.elim

theorem reports_stmts : ∀ body : List Stmt, Stmt.AllParsed source body →
    ∀ {around : List Enclosure} {seen : List String} {v : View}, v.Fits around seen →
      reportSet (stmtsNotes v body) =
        offences (stmtsSites around body) ∪ redeclared around seen (body.flatMap declaredNames)
  | [], _, around, seen, v, fits => by
    rw [stmtsNotes, stmtsSites, reportSet_nil, offences_nil, List.flatMap_nil, redeclared_nil, Set.union_empty]
  | s :: rest, parsed, around, seen, v, fits => by
    rw [stmtsNotes, reportSet_append, reports_stmt s parsed.1 fits,
      reports_stmts rest parsed.2 (fits.set (declaredNames s)), stmtsSites, offences_append, List.flatMap_cons,
      redeclared_append]
    ac_rfl

/-- The parameters of a function and its body share a scope. -/
theorem reports_function : ∀ (role : Role) (f : FunDecl), f.Parsed source →
    ∀ {around : List Enclosure} {v : View}, v.classBody = classContext around →
      reportSet (functionNotes v (role.context f.name) f) = offences (functionSites around role f)
  | role, ⟨name, params, body⟩, parsed, around, v, inside => by
    have fits : ((v.inFunction (role.context name)).push []).Fits (.function role name :: around) [] :=
      View.fits_push rfl inside nofun
    rw [functionNotes, reportSet_append, fits.knows.declares, reports_stmts body parsed.2.2 (fits.set (params.getD [])),
      functionSites, offences_cons, offences_scope (.inr ⟨_, rfl⟩) (.function role name), Node.declares,
      redeclared_append]
    ac_rfl

theorem reports_functions : ∀ (role : Role) (fs : List FunDecl), FunDecl.AllParsed source fs →
    ∀ {around : List Enclosure} {v : View}, v.classBody = classContext around →
      reportSet (functionsNotes v role.context fs) = offences (functionsSites around role fs)
  | _, [], _, around, v, _ => by rw [functionsNotes, functionsSites, reportSet_nil, offences_nil]
  | role, f :: rest, parsed, around, v, inside => by
    rw [functionsNotes, functionsSites, reportSet_append, offences_append, reports_functions role rest parsed.2 inside,
      ← reports_function role f parsed.1 inside]

end

end

theorem view_start_fits : (State.start []).view.Fits [] [] :=
  ⟨rfl, rfl, ⟨iff_of_true rfl rfl, by simp [State.view, State.start]⟩, by simp⟩

/-- What is reported about a program that was read. -/
theorem mem_errors_iff {source : Token → Prop} {program resolved : List Stmt} {found : State}
    (parsed : Stmt.AllParsed source program) (ran : resolveStmts program (.start []) = .ok resolved found)
    (error : ScopeError) (token : Token) :
    (error, token) ∈ found.errors ↔ ∃ site ∈ stmtsSites [] program, site.Offends error token := by
  obtain ⟨rfl, rfl⟩ := fill_of_resolved parsed ran
  have same := congrArg ((error, token) ∈ ·) (reports_stmts program parsed view_start_fits)
  simpa [State.noting, State.start, reportSet, offences, redeclared] using same

/-- Every program that is read is resolved, and what is reported are exactly the places that break a rule. So nothing is
reported exactly if no place breaks one. -/
theorem resolving_reports_offences {tokens : List Token} {program : List Stmt}
    (read : (parseProgram tokens).result = .ok program) :
    ∃ resolved found, (resolveStmts program).run (.start []) = .ok resolved found ∧
      (∀ error token, (error, token) ∈ found.errors ↔ ∃ site ∈ stmtsSites [] program, site.Offends error token) ∧
      (found.errors = #[] ↔ ∀ site ∈ stmtsSites [] program, ∀ error token, ¬ site.Offends error token) := by
  have parsed := Grammar.parsed_of_parseProgram read
  have ran := runs_stmts program parsed _ (.start []) rfl
  have reported := mem_errors_iff parsed ran
  refine ⟨_, _, ran, reported, ?_⟩
  rw [Array.eq_empty_iff_forall_not_mem]
  constructor
  · intro clean site member error token offends
    exact clean _ ((reported error token).mpr ⟨site, member, offends⟩)
  · rintro valid ⟨error, token⟩ wrong
    obtain ⟨site, member, offends⟩ := (reported error token).mp wrong
    exact valid site member error token offends

/-! A class in whose initializer a local variable reads itself, and which returns a value. -/

def offendingSource : String := "class C\x7binit()\x7bvar a=a;return nil;\x7d\x7d"

def offendingName : Token := .named "a"

def offendingReturn : Token := ⟨.kwReturn, "return", .nil, 1⟩

def offendingProgram : List Stmt :=
  [.classDef ⟨.named "C", none,
    [⟨.named "init", some [], [.var offendingName (some (.var offendingName none)),
      .returnValue offendingReturn (some (.literal .nil))]⟩], [], []⟩]

theorem resolving_reports_offences_initializer :
    (parseProgram (scan offendingSource).tokens).result = .ok offendingProgram ∧
    ∃ resolved found, (resolveStmts offendingProgram).run (.start []) = .ok resolved found ∧
      (∀ error token,
        (error, token) ∈ found.errors ↔ ∃ site ∈ stmtsSites [] offendingProgram, site.Offends error token) ∧
      found.errors = #[(.readInOwnInitializer, offendingName), (.valueFromInitializer, offendingReturn)] := by
  have read : (parseProgram (scan offendingSource).tokens).result = .ok offendingProgram :=
    congrArg Parse.result (parseProgram_of_steps rfl rfl (Grammar.derives_statements .oneLine offendingProgram rfl))
  obtain ⟨resolved, found, ran, reported, -⟩ := resolving_reports_offences read
  refine ⟨read, resolved, found, ran, reported, ?_⟩
  cases ran
  rfl

end LoxLang.Scope
