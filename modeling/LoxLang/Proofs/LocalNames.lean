import LoxLang.Proofs.RenamedRuns
import LoxLang.Proofs.RenamedScopes
import LoxLang.Proofs.RulesChecked

/-!
Local names do not matter. If a local variable or a parameter of an accepted program is given a name that stands nowhere
in the program, the program stays accepted, with the same depths, and it prints the same and ends the same way.
-/

namespace LoxLang

variable {source : Token → Prop} {s : Stmt} {name : Token} {body program : List Stmt} {sites : List Site}

/-! ### Renaming one local variable -/

/-- The name of the variable that a statement declares. -/
def Stmt.variableName? : Stmt → Option String
  | .var name _ => some name.lexeme
  | _ => none

mutual

/-- A scope inside the statement declares a variable `x`, and the second statement calls it `y`: where it is declared,
and wherever a depth leads to it. -/
inductive Stmt.RenamesLocal (x y : String) : Stmt → Stmt → Prop
  | here {body : List Stmt} (declared : x ∈ body.filterMap Stmt.variableName?) :
    Stmt.RenamesLocal x y (.block body) (.block (Stmt.renameAll [Equiv.swap x y] body))
  | block {body body' : List Stmt} (inner : Stmt.AnyRenamesLocal x y body body') :
    Stmt.RenamesLocal x y (.block body) (.block body')
  | thenBranch {test : Expr} {yes yes' : Stmt} {no : Option Stmt}
    (inner : Stmt.RenamesLocal x y yes yes') :
    Stmt.RenamesLocal x y (.ifElse test yes no) (.ifElse test yes' no)
  | elseBranch {test : Expr} {yes no no' : Stmt}
    (inner : Stmt.RenamesLocal x y no no') :
    Stmt.RenamesLocal x y (.ifElse test yes (some no)) (.ifElse test yes (some no'))
  | whileLoop {test : Expr} {body body' : Stmt} (inner : Stmt.RenamesLocal x y body body') :
    Stmt.RenamesLocal x y (.whileLoop test body) (.whileLoop test body')
  | function {f f' : FunDecl} (inner : FunDecl.RenamesLocal x y f f') :
    Stmt.RenamesLocal x y (.function f) (.function f')
  | method {name : Token} {base : Option NameRef} {methods methods' own : List FunDecl}
    {traits : List NameRef} (inner : FunDecl.AnyRenamesLocal x y methods methods') :
    Stmt.RenamesLocal x y (.classDef ⟨name, base, methods, own, traits⟩) (.classDef ⟨name, base, methods', own, traits⟩)
  | traitMethod {name : Token} {traits : List NameRef} {methods methods' : List FunDecl}
    (inner : FunDecl.AnyRenamesLocal x y methods methods') :
    Stmt.RenamesLocal x y (.traitDef ⟨name, traits, methods⟩) (.traitDef ⟨name, traits, methods'⟩)

inductive Stmt.AnyRenamesLocal (x y : String) : List Stmt → List Stmt → Prop
  | first {s s' : Stmt} {rest : List Stmt} (inner : Stmt.RenamesLocal x y s s') :
    Stmt.AnyRenamesLocal x y (s :: rest) (s' :: rest)
  | later {s : Stmt} {rest rest' : List Stmt} (inner : Stmt.AnyRenamesLocal x y rest rest') :
    Stmt.AnyRenamesLocal x y (s :: rest) (s :: rest')

/-- A parameter of the function is renamed, or a variable in the same scope, or one inside. -/
inductive FunDecl.RenamesLocal (x y : String) : FunDecl → FunDecl → Prop
  | here {name : Token} {params : Option (List Token)} {body : List Stmt}
    (declared : x ∈ (params.getD []).map Token.lexeme ++ body.filterMap Stmt.variableName?) :
    FunDecl.RenamesLocal x y ⟨name, params, body⟩
      ⟨name, params.map (List.map (Token.rename (Equiv.swap x y))), Stmt.renameAll [Equiv.swap x y] body⟩
  | body {name : Token} {params : Option (List Token)} {body body' : List Stmt}
    (inner : Stmt.AnyRenamesLocal x y body body') :
    FunDecl.RenamesLocal x y ⟨name, params, body⟩ ⟨name, params, body'⟩

inductive FunDecl.AnyRenamesLocal (x y : String) : List FunDecl → List FunDecl → Prop
  | first {f f' : FunDecl} {rest : List FunDecl} (inner : FunDecl.RenamesLocal x y f f') :
    FunDecl.AnyRenamesLocal x y (f :: rest) (f' :: rest)
  | later {f : FunDecl} {rest rest' : List FunDecl} (inner : FunDecl.AnyRenamesLocal x y rest rest') :
    FunDecl.AnyRenamesLocal x y (f :: rest) (f :: rest')

end

/-! ### A scope declares a name once -/

namespace Scope

theorem nodup_of_not_repeats {names : List Token} (once : ∀ name, ¬ Repeats [] names name) :
    (names.map Token.lexeme).Nodup := by
  have fresh : ∀ (seen : List String) (names : List Token), (∀ name, ¬ Repeats seen names name) →
      (names.map Token.lexeme).Nodup ∧ ∀ name ∈ names, name.lexeme ∉ seen := by
    intro seen names
    induction names generalizing seen with
    | nil => simp
    | cons name _ ih =>
      intro once
      simp only [repeats_cons, not_or] at once
      have here : name.lexeme ∉ seen := fun again => (once name).1 ⟨rfl, again⟩
      obtain ⟨distinct, new⟩ := ih (seen ++ [name.lexeme]) fun other => (once other).2
      simp only [List.mem_append, List.mem_singleton, not_or] at new
      refine ⟨?_, ?_⟩
      · simp only [List.map_cons, List.nodup_cons, List.mem_map, not_exists, not_and]
        exact ⟨fun other member => (new other member).2, distinct⟩
      · intro other member
        rcases List.mem_cons.mp member with rfl | member
        · exact here
        · exact (new other member).1
  exact (fresh [] names once).1

theorem keptNames_of_isPlain : ∀ s : Stmt, s.Parsed source → s.isPlain = true → s.keptNames = []
  | .ifElse _ yes none, parsed, _ => keptNames_of_isPlain yes parsed.2.2 parsed.2.1
  | .ifElse _ yes (some no), parsed, _ => by
    rw [Stmt.keptNames, keptNames_of_isPlain yes parsed.2.1.2 parsed.2.1.1,
      keptNames_of_isPlain no parsed.2.2.2 parsed.2.2.1, List.append_nil]
  | .whileLoop _ body, parsed, _ => keptNames_of_isPlain body parsed.2.2 parsed.2.1
  | .expression _, _, _ | .print _, _, _ | .block _, _, _ | .breakLoop, _, _ | .returnValue .., _, _ => rfl

/-- The functions, classes and traits that a statement declares are not declared as variables. -/
theorem mem_declaredNames_of_mem_keptNames (parsed : s.Parsed source) (kept : name ∈ s.keptNames) :
    name ∈ declaredNames s ∧ s.variableName? = none := by
  cases s with
  | function | classDef | traitDef => exact ⟨kept, rfl⟩
  | var => cases kept
  | _ =>
    rw [keptNames_of_isPlain _ parsed rfl] at kept
    cases kept

theorem parsed_of_mem (parsed : Stmt.AllParsed source body) (member : s ∈ body) : s.Parsed source := by
  induction body with
  | nil => cases member
  | cons _ _ ih =>
    rcases List.mem_cons.mp member with rfl | member
    · exact parsed.1
    · exact ih parsed.2 member

theorem mem_allNames (member : s ∈ body) {name : String} (named : name ∈ s.names) : name ∈ Stmt.allNames body := by
  induction body with
  | nil => cases member
  | cons _ _ ih =>
    rw [Stmt.allNames]
    rcases List.mem_cons.mp member with rfl | member
    · exact List.mem_append_left _ named
    · exact List.mem_append_right _ (ih member)

theorem mem_names_of_declared (declared : name ∈ declaredNames s) : name.lexeme ∈ s.names := by
  cases s with
  | var => simp_all [declaredNames, Stmt.names]
  | function decl =>
    obtain ⟨other, params, body⟩ := decl
    simp_all [declaredNames, Stmt.names, FunDecl.names]
  | classDef decl =>
    obtain ⟨other, base, methods, own, traits⟩ := decl
    simp_all [declaredNames, Stmt.names]
  | traitDef decl =>
    obtain ⟨other, traits, methods⟩ := decl
    simp_all [declaredNames, Stmt.names]
  | _ => cases declared

theorem var_mem_of_filterMap {x : String} (declared : x ∈ body.filterMap Stmt.variableName?) :
    ∃ name init, .var name init ∈ body ∧ name.lexeme = x := by
  obtain ⟨s, member, isVariable⟩ := List.mem_filterMap.mp declared
  cases s with
  | var name init => exact ⟨name, init, member, Option.some.inj isVariable⟩
  | _ => cases isVariable

section
variable {source : Token → Prop} {x y : String} {params : List Token} {body : List Stmt}

/-- In a scope that declares `x` as a variable or a parameter, no function, class or trait has that name. -/
theorem ne_of_kept (parsed : Stmt.AllParsed source body)
    (once : ((params ++ body.flatMap declaredNames).map Token.lexeme).Nodup)
    (declared : x ∈ params.map Token.lexeme ++ body.filterMap Stmt.variableName?) (member : s ∈ body)
    (kept : name ∈ s.keptNames) : name.lexeme ≠ x := by
  obtain ⟨isDeclared, noVariable⟩ := mem_declaredNames_of_mem_keptNames (parsed_of_mem parsed member) kept
  rw [List.map_append, List.nodup_append, List.map_flatMap] at once
  obtain ⟨-, distinct, apart⟩ := once
  have inBody : name.lexeme ∈ body.flatMap fun s => (declaredNames s).map Token.lexeme :=
    List.mem_flatMap.mpr ⟨s, member, List.mem_map_of_mem isDeclared⟩
  rcases List.mem_append.mp declared with isParam | isVariable
  · exact (apart x isParam name.lexeme inBody).symm
  · obtain ⟨other, init, member', rfl⟩ := var_mem_of_filterMap isVariable
    have different : s ≠ .var other init := by
      rintro rfl
      cases noVariable
    have symmetric : Std.Symm (Function.onFun List.Disjoint fun s => (declaredNames s).map Token.lexeme) :=
      ⟨fun _ _ disjoint => disjoint.symm⟩
    have disjoint := (List.nodup_flatMap.mp distinct).2.forall member member' different
    intro same
    exact disjoint (List.mem_map_of_mem isDeclared) (by simp [declaredNames, same])

theorem keepsName_of_kept (parsed : Stmt.AllParsed source body)
    (once : ((params ++ body.flatMap declaredNames).map Token.lexeme).Nodup)
    (declared : x ∈ params.map Token.lexeme ++ body.filterMap Stmt.variableName?) (new : y ∉ Stmt.allNames body)
    (ρ : List Renaming) : ∀ s ∈ body, ∀ name ∈ s.keptNames, KeepsName (Equiv.swap x y :: ρ) name := by
  intro s member name kept
  have isDeclared := (mem_declaredNames_of_mem_keptNames (parsed_of_mem parsed member) kept).1
  refine Equiv.swap_apply_of_ne_of_ne (ne_of_kept parsed once declared member kept) ?_
  rintro rfl
  exact new (mem_allNames member (mem_names_of_declared isDeclared))

end

/-! ### What is renamed -/

/-- No place breaks a rule. -/
def Valid (sites : List Site) : Prop := ∀ site ∈ sites, ∀ error token, ¬ site.Offends error token

theorem valid_cons {site : Site} :
    Valid (site :: sites) ↔ (∀ error token, ¬ site.Offends error token) ∧ Valid sites := by
  simp [Valid]

theorem valid_append {more : List Site} : Valid (sites ++ more) ↔ Valid sites ∧ Valid more := by
  simp [Valid, or_imp, forall_and]

/-- One local variable is renamed: it has a name that a program can give, and the trees differ in that name only, in any
scopes that keep their names. -/
structure OneRenamed (x y : String) (trees : (Renaming → Prop) → List Renaming → Prop) : Prop where
  word : Unreserved x
  renamed : ∀ allowed ρ, allowed 1 → allowed (Equiv.swap x y) → (∀ π ∈ ρ, π = 1) → trees allowed ρ

theorem OneRenamed.imp {x y : String} {trees trees' : (Renaming → Prop) → List Renaming → Prop}
    (one : OneRenamed x y trees) (inside : ∀ allowed ρ, allowed 1 → (∀ π ∈ ρ, π = 1) →
      (∀ ρ', (∀ π ∈ ρ', π = 1) → trees allowed ρ') → trees' allowed ρ) : OneRenamed x y trees' :=
  ⟨one.word, fun allowed ρ keeps swap trivial =>
    inside allowed ρ keeps trivial fun ρ' trivial' => one.renamed allowed ρ' keeps swap trivial'⟩

section
variable {source : Token → Prop} {x y : String}

theorem unreserved_of_names (spelled : Spelled source) (names : name.Names source) :
    Unreserved name.lexeme := ⟨(spelled.names name names.2 names.1).1, (spelled.names name names.2 names.1).2⟩

theorem unreserved_of_declared (spelled : Spelled source) (parsed : Stmt.AllParsed source body)
    (declared : x ∈ body.filterMap Stmt.variableName?) : Unreserved x := by
  obtain ⟨name, init, member, rfl⟩ := var_mem_of_filterMap declared
  exact unreserved_of_names spelled (parsed_of_mem parsed member).1

theorem once_of_valid {around : List Enclosure} {node : Node} (valid : Valid (⟨around, node⟩ :: sites)) :
    (node.declares.map Token.lexeme).Nodup :=
  nodup_of_not_repeats fun _ again => (valid_cons.mp valid).1 _ _ (.declaredTwice again)

section
variable (spelled : Spelled source)
include spelled

set_option linter.unusedSectionVars false in
mutual

theorem oneRenamed_stmt : ∀ s : Stmt, ∀ {s' : Stmt} {around : List Enclosure},
    s.RenamesLocal x y s' → s.Parsed source → Valid (stmtSites around s) → y ∉ s.names →
    OneRenamed x y fun allowed ρ => Stmt.Renamed allowed ρ s s'
  | .block body, s', around, renames, parsed, valid, new => by
    cases renames with
    | here declared =>
      refine ⟨unreserved_of_declared spelled parsed declared, fun allowed ρ one swap trivial => ?_⟩
      rw [Stmt.renameAll_congr (sameNaming_cons_of_trivial trivial _)]
      have once : (([] ++ body.flatMap declaredNames).map Token.lexeme).Nodup := once_of_valid valid
      exact .block swap (Stmt.allRenamed_rename one body (keepsName_of_kept parsed once declared new ρ))
    | block inner =>
      have inside := oneRenamed_stmts body inner parsed (valid_cons.mp valid).2 new
      exact inside.imp fun _ _ keeps trivial inner => .block keeps (inner _ (trivial_cons trivial))
  | .ifElse test yes none, s', around, renames, parsed, valid, new => by
    rw [stmtSites, valid_cons, valid_append] at valid
    simp only [Stmt.names, List.mem_append, not_or] at new
    cases renames with
    | thenBranch inner =>
      have yes := oneRenamed_stmt yes inner parsed.2.2 valid.2.2 new.2
      refine yes.imp fun allowed ρ keeps trivial yes => ?_
      have renamed : Stmt.Renamed allowed ρ (.ifElse test _ none) _ := .ifThen (yes ρ trivial)
      rwa [Expr.rename_of_trivial trivial] at renamed
  | .ifElse test yes (some no), s', around, renames, parsed, valid, new => by
    rw [stmtSites, valid_cons, valid_append, valid_append] at valid
    simp only [Stmt.names, List.mem_append, not_or] at new
    have both : ∀ {allowed : Renaming → Prop} {ρ : List Renaming} {yes' no' : Stmt},
        (∀ π ∈ ρ, π = 1) → Stmt.Renamed allowed ρ yes yes' →
        Stmt.Renamed allowed ρ no no' →
        Stmt.Renamed allowed ρ (.ifElse test yes (some no)) (.ifElse test yes' (some no')) := by
      intro allowed ρ yes' no' trivial yes no
      have renamed : Stmt.Renamed allowed ρ (.ifElse test _ (some _)) _ := .ifElse yes no
      rwa [Expr.rename_of_trivial trivial] at renamed
    cases renames with
    | thenBranch inner =>
      have yes := oneRenamed_stmt yes inner parsed.2.1.2 valid.2.1.2 new.1.2
      exact yes.imp fun _ _ keeps trivial yes =>
        both trivial (yes _ trivial) (Stmt.renamed_refl keeps trivial no)
    | elseBranch inner =>
      have no := oneRenamed_stmt no inner parsed.2.2.2 valid.2.2 new.2
      exact no.imp fun _ _ keeps trivial no =>
        both trivial (Stmt.renamed_refl keeps trivial yes) (no _ trivial)
  | .whileLoop test body, s', around, renames, parsed, valid, new => by
    rw [stmtSites, valid_cons, valid_append] at valid
    simp only [Stmt.names, List.mem_append, not_or] at new
    cases renames with
    | whileLoop inner =>
      have loop := oneRenamed_stmt body inner parsed.2.2 valid.2.2 new.2
      refine loop.imp fun allowed ρ keeps trivial loop => ?_
      have renamed : Stmt.Renamed allowed ρ (.whileLoop test body) _ := .whileLoop (loop ρ trivial)
      rwa [Expr.rename_of_trivial trivial] at renamed
  | .function f, s', around, renames, parsed, valid, new => by
    cases renames with
    | function inner =>
      have one := oneRenamed_function f inner parsed (valid_cons.mp valid).2 new
      exact one.imp fun _ _ _ trivial one => .function (keepsName_of_trivial trivial f.name) (one _ trivial)
  | .classDef ⟨name, base, methods, classMethods, traits⟩, s', around, renames, parsed, valid, new => by
    rw [stmtSites, valid_cons, valid_append] at valid
    simp only [Stmt.names, List.mem_cons, List.mem_append, not_or] at new
    cases renames with
    | method inner =>
      have members := oneRenamed_functions methods inner parsed.2.2.1 valid.2.1 new.2.1.1.2
      refine members.imp fun allowed ρ keeps trivial members => ?_
      have around := trivial_aroundMembers trivial base
      have own := FunDecl.allRenamed_refl keeps (trivial_cons around) classMethods
      have renamed : Stmt.Renamed allowed ρ (.classDef ⟨name, base, methods, classMethods, traits⟩) _ :=
        .classDef (keepsName_of_trivial trivial name) (members _ (trivial_cons around)) own
      rwa [NameRef.rename_eq_id trivial, NameRef.rename_eq_id around, Option.map_id, List.map_id] at renamed
  | .traitDef ⟨name, traits, methods⟩, s', around, renames, parsed, valid, new => by
    simp only [Stmt.names, List.mem_cons, List.mem_append, not_or] at new
    cases renames with
    | traitMethod inner =>
      have members := oneRenamed_functions methods inner parsed.2 (valid_cons.mp valid).2 new.2.2
      refine members.imp fun allowed ρ keeps trivial members => ?_
      have renamed : Stmt.Renamed allowed ρ (.traitDef ⟨name, traits, methods⟩) _ :=
        .traitDef (keepsName_of_trivial trivial name) (members _ (trivial_cons trivial))
      rwa [NameRef.rename_eq_id trivial, List.map_id] at renamed
  | .expression _, _, _, renames, _, _, _ | .print _, _, _, renames, _, _, _ | .var .., _, _, renames, _, _, _
  | .breakLoop, _, _, renames, _, _, _ | .returnValue .., _, _, renames, _, _, _
  | .missing, _, _, renames, _, _, _ => by cases renames
termination_by structural s => s

theorem oneRenamed_stmts : ∀ body : List Stmt, ∀ {body' : List Stmt}
    {around : List Enclosure}, Stmt.AnyRenamesLocal x y body body' → Stmt.AllParsed source body →
    Valid (stmtsSites around body) → y ∉ Stmt.allNames body →
    OneRenamed x y fun allowed ρ => Stmt.AllRenamed allowed ρ body body'
  | [], body', around, renames, parsed, valid, new => by cases renames
  | s :: rest, body', around, renames, parsed, valid, new => by
    rw [stmtsSites, valid_append] at valid
    simp only [Stmt.allNames, List.mem_append, not_or] at new
    cases renames with
    | first inner =>
      have one := oneRenamed_stmt s inner parsed.1 valid.1 new.1
      exact one.imp fun _ _ keeps trivial one => .cons (one _ trivial) (Stmt.allRenamed_refl keeps trivial rest)
    | later inner =>
      have others := oneRenamed_stmts rest inner parsed.2 valid.2 new.2
      exact others.imp fun _ _ keeps trivial others => .cons (Stmt.renamed_refl keeps trivial s) (others _ trivial)
termination_by structural body => body

theorem oneRenamed_function : ∀ f : FunDecl, ∀ {f' : FunDecl}
    {around : List Enclosure} {role : Role}, f.RenamesLocal x y f' → f.Parsed source →
    Valid (functionSites around role f) → y ∉ f.names →
    OneRenamed x y fun allowed ρ => FunDecl.Renamed allowed ρ f f'
  | ⟨name, params, body⟩, f', around, role, renames, parsed, valid, new => by
    simp only [FunDecl.names, List.mem_cons, List.mem_append, not_or] at new
    cases renames with
    | here declared =>
      have word : Unreserved x := by
        rcases List.mem_append.mp declared with isParam | isVariable
        · obtain ⟨param, member, rfl⟩ := List.mem_map.mp isParam
          exact unreserved_of_names spelled (parsed.2.1 param member)
        · exact unreserved_of_declared spelled parsed.2.2 isVariable
      refine ⟨word, fun allowed ρ keeps swap trivial => ?_⟩
      rw [Stmt.renameAll_congr (sameNaming_cons_of_trivial trivial _)]
      have kept := keepsName_of_kept parsed.2.2 (once_of_valid valid) declared new.2.2 ρ
      exact .mk swap (Stmt.allRenamed_rename keeps body kept)
    | body inner =>
      have inside := oneRenamed_stmts body inner parsed.2.2 (valid_cons.mp valid).2 new.2.2
      exact inside.imp fun _ _ keeps trivial inner =>
        .of_body keeps (fun _ _ => rfl) (inner _ (trivial_cons trivial))
termination_by structural f => f

theorem oneRenamed_functions : ∀ fs : List FunDecl, ∀ {fs' : List FunDecl}
    {around : List Enclosure} {role : Role}, FunDecl.AnyRenamesLocal x y fs fs' →
    FunDecl.AllParsed source fs → Valid (functionsSites around role fs) → y ∉ FunDecl.allNames fs →
    OneRenamed x y fun allowed ρ => FunDecl.AllRenamed allowed ρ fs fs'
  | [], fs', around, role, renames, parsed, valid, new => by cases renames
  | f :: rest, fs', around, role, renames, parsed, valid, new => by
    rw [functionsSites, valid_append] at valid
    simp only [FunDecl.allNames, List.mem_append, not_or] at new
    cases renames with
    | first inner =>
      have one := oneRenamed_function f inner parsed.1 valid.1 new.1
      exact one.imp fun _ _ keeps trivial one =>
        .cons (one _ trivial) (FunDecl.allRenamed_refl keeps trivial rest)
    | later inner =>
      have others := oneRenamed_functions rest inner parsed.2 valid.2 new.2
      exact others.imp fun _ _ keeps trivial others =>
        .cons (FunDecl.renamed_refl keeps trivial f) (others _ trivial)
termination_by structural fs => fs

end

end

end

/-! ### Resolving and running what is renamed -/

theorem resolved_renamed {x y : String} (word : Unreserved y) {written renamed : List Stmt} {found : State}
    (parsed : Stmt.AllParsed source written) (resolved : resolveStmts written (.start []) = .ok program found)
    (clean : found.errors = #[]) (simple : Stmt.AllNoClassMethods program) (new : y ∉ Stmt.allNames program)
    (tree : Stmt.AllRenamed (Replaces x y) [1] program renamed) :
    ∃ found', resolveStmts renamed (.start []) = .ok renamed found' ∧ found'.errors = #[] := by
  obtain ⟨rfl, rfl⟩ := fill_of_resolved parsed resolved
  have begun : ViewsAlike y [1] (State.start []).view (State.start []).view := ⟨.nil [1], rfl, rfl⟩
  have outermost : ∀ π ∈ [(1 : Renaming)], Replaces x y π := by simpa using replaces_one
  have stays := stays_stmts word written parsed tree outermost ((noClassMethods_fillStmts written _).mp simple) new begun
    (errors_noting.mp clean).2
  have ran := runs_stmts renamed stays.parsed _ (.start []) rfl
  rw [stays.filled] at ran
  exact ⟨_, ran, errors_noting.mpr ⟨rfl, stays.quiet⟩⟩

theorem valid_of_resolved {found : State} (parsed : Stmt.AllParsed source program)
    (resolved : resolveStmts program (.start []) = .ok program found) (clean : found.errors = #[]) :
    Valid (stmtsSites [] program) := by
  intro site member error token offends
  have reported := (mem_errors_iff parsed resolved error token).mpr ⟨site, member, offends⟩
  simp [clean] at reported

end Scope

/-- The kind of an ending: without the value that is returned, and without the name of what is no trait. -/
def Ending.kind : Ending → Ending
  | .returned _ => .returned .nil
  | .crashed (.declaration (.notTrait _)) => .crashed (.declaration (.notTrait ""))
  | ending => ending

namespace Layout

theorem Endings.kind_eq {l : Layout} {ending ending' : Ending} (alike : l.Endings ending ending') :
    ending'.kind = ending.kind := by
  cases alike <;> rfl

/-- Programs that differ in the names of local variables print the same and end the same way. -/
theorem interpret_renamed {renamed : List Stmt} (tree : Stmt.AllRenamed Renaming.Proper [1] program renamed)
    (fuel : Nat) (clock dice : Readings) : ((Machine.start clock dice).interpret fuel renamed).1.printed =
        ((Machine.start clock dice).interpret fuel program).1.printed ∧
      ((Machine.start clock dice).interpret fuel renamed).2.map Ending.kind =
        ((Machine.start clock dice).interpret fuel program).2.map Ending.kind := by
  have follows : Results _ _ (Eval.runAll (Eval.execute fuel) program _) (Eval.runAll (Eval.execute fuel) renamed _) :=
    follows_runAll (partsFollow_ofFuel fuel) (machines_start clock dice).seen rfl tree
  simp only [Machine.interpret, Machine.perform, EStateM.run]
  generalize Eval.runAll (Eval.execute fuel) program (.start clock dice) = outcome at follows ⊢
  generalize Eval.runAll (Eval.execute fuel) renamed (.start clock dice) = outcome' at follows ⊢
  cases follows with
  | ok _ pair => exact ⟨pair.printed, rfl⟩
  | @error l m m' ending ending' _ pair _ alike =>
    have kinds := alike.kind_eq
    cases alike with
    | failed => exact ⟨by simp [Machine.printAll, pair.printed], rfl⟩
    | _ => exact ⟨pair.printed, congrArg some kinds⟩

end Layout

/-- Local names do not matter: where a local variable or a parameter of an accepted program without methods of classes
themselves gets a new name, the program is resolved without an error again, with the same depths, and its run prints
the same and has the same kind of ending. -/
theorem local_names_hygienic {source : String} {program renamed : List Stmt} {x y : String}
    (accepted : Accepted source program) (simple : Stmt.AllNoClassMethods program) (word : Unreserved y)
    (new : y ∉ Stmt.allNames program) (renames : Stmt.AnyRenamesLocal x y program renamed) :
    (∃ found, (Scope.resolveStmts renamed).run (.start []) = .ok renamed found ∧ found.errors = #[]) ∧
      ∀ fuel clock dice,
        ((Machine.start clock dice).interpret fuel renamed).1.printed =
            ((Machine.start clock dice).interpret fuel program).1.printed ∧
          ((Machine.start clock dice).interpret fuel renamed).2.map Ending.kind =
            ((Machine.start clock dice).interpret fuel program).2.map Ending.kind := by
  obtain ⟨-, -, written, found, read, resolved, clean⟩ := accepted
  have shape := Grammar.parsed_of_parseProgram (congrArg Parse.result read)
  have parsed := (Scope.resolved_program shape resolved).parsed
  have outermost : ∀ π ∈ [(1 : Renaming)], π = 1 := by simp
  -- Where nothing is renamed, this says that the program is resolved to itself.
  obtain ⟨_, again, cleanAgain⟩ := Scope.resolved_renamed (x := x) word shape resolved clean simple new
    (Stmt.allRenamed_refl replaces_one outermost program)
  have valid := Scope.valid_of_resolved parsed again cleanAgain
  have one := Scope.oneRenamed_stmts (spelled_tokens source) program renames parsed valid new
  refine ⟨?_, fun fuel clock dice => ?_⟩
  · have tree := one.renamed (Replaces x y) [1] replaces_one (.inr rfl) outermost
    exact Scope.resolved_renamed word shape resolved clean simple new tree
  · have proper : Renaming.Proper (Equiv.swap x y) := Replaces.proper (.inr rfl) one.word word
    have tree := one.renamed Renaming.Proper [1] Renaming.proper_one proper outermost
    exact Layout.interpret_renamed tree fuel clock dice

/-! A local variable that hides a global one of the same name, and a function that prints it. -/

def hidingSource : String := "var a=false;\x7bvar a=true;fun f()\x7bprint a;\x7df();\x7d"

def hidingProgram (name : String) : List Stmt :=
  [.var (.named "a") (some (.literal (.bool false))),
    .block [.var (.named name) (some (.literal (.bool true))),
      .function ⟨.named "f", some [], [.print (.var (.named name) (some 1))]⟩,
      .expression (.call (.var (.named "f") (some 0)) ⟨.rightParen, ")", .nil, 1⟩ [])]]

theorem accepted_hiding : Accepted hidingSource (hidingProgram "a") :=
  have written := Grammar.derives_statements .oneLine
    [.var (.named "a") (some (.literal (.bool false))),
      .block [.var (.named "a") (some (.literal (.bool true))),
        .function ⟨.named "f", some [], [.print (.var (.named "a") none)]⟩,
        .expression (.call (.var (.named "f") none) ⟨.rightParen, ")", .nil, 1⟩ [])]] rfl
  .of_steps rfl rfl rfl written rfl rfl

theorem renames_hiding : Stmt.AnyRenamesLocal "a" "b" (hidingProgram "a") (hidingProgram "b") :=
  .later (.first (.here (by simp [Stmt.variableName?, Token.named])))

/-- Under the new name, the function still prints the local variable. -/
theorem local_names_hygienic_hiding :
    Accepted hidingSource (hidingProgram "a") ∧ Stmt.AnyRenamesLocal "a" "b" (hidingProgram "a") (hidingProgram "b") ∧
      (∃ found, (Scope.resolveStmts (hidingProgram "b")).run (.start []) = .ok (hidingProgram "b") found ∧
        found.errors = #[]) ∧
      ((Machine.start {} {}).interpret 5 (hidingProgram "b")).1.printed =
        ((Machine.start {} {}).interpret 5 (hidingProgram "a")).1.printed := by
  have simple : Stmt.AllNoClassMethods (hidingProgram "a") := by
    simp [hidingProgram, Stmt.AllNoClassMethods, Stmt.NoClassMethods, FunDecl.NoClassMethods]
  have new : "b" ∉ Stmt.allNames (hidingProgram "a") := by decide
  obtain ⟨again, runs⟩ :=
    local_names_hygienic accepted_hiding simple ⟨by decide, by decide⟩ new renames_hiding
  exact ⟨accepted_hiding, renames_hiding, again, (runs 5 {} {}).1⟩

end LoxLang
