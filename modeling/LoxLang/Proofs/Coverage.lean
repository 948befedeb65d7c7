import LoxLang.Proofs.Accepted

/-!
Resolving covers the names that a program mentions. Every program that is read can be resolved, and each name that it
mentions is looked for once and in order, except the traits that its classes include: these are never looked for among
the scopes around the class.
-/

namespace LoxLang.Scope

/-! ### Mentions -/

/-- The mention before its name has been looked for. That of a trait which a class includes stays as it is. -/
def Mention.unresolved (mention : Mention) : Mention :=
  if mention.isIncluded then mention else { mention with depth := none }

/-- What is kept of a mention whose name has been found. -/
def Mention.resolution? (mention : Mention) : Option Resolution :=
  if mention.isIncluded then none else mention.depth.map fun d => ⟨mention.occurrence, mention.name, d⟩

/-- Names that are mentioned have been looked for, each once. They are mentioned in the same order as before, and what
was found is kept in this order. A name that a scope further out declares has been found. -/
structure Covers (bottom : List Declared) (before after : List Mention) (found : List Resolution) : Prop where
  same : after.map Mention.unresolved = before.map Mention.unresolved
  kept : found = after.filterMap Mention.resolution?
  always : ∀ mention ∈ after, mention.isIncluded = false → mention.occurrence ≠ .this →
    ∀ scope ∈ bottom, scope.contains mention.name.lexeme = true → mention.depth.isSome = true

section
variable {bottom : List Declared} {v : View}

theorem covers_nil : Covers bottom [] [] [] := ⟨rfl, rfl, fun _ member => absurd member List.not_mem_nil⟩

theorem Covers.append {before₁ after₁ before₂ after₂ : List Mention} {one two : List Resolution}
    (first : Covers bottom before₁ after₁ one) (second : Covers bottom before₂ after₂ two) :
    Covers bottom (before₁ ++ before₂) (after₁ ++ after₂) (one ++ two) where
  same := by rw [List.map_append, List.map_append, first.same, second.same]
  kept := by rw [List.filterMap_append, first.kept, second.kept]
  always mention member := (List.mem_append.mp member).elim (first.always mention) (second.always mention)

/-- The traits that a class includes are not looked for. -/
theorem covers_included (traits : List NameRef) :
    Covers bottom (traits.map (refMention true)) (traits.map (refMention true)) [] := by
  refine ⟨rfl, ?_, fun mention member isUse => ?_⟩
  · induction traits with
    | nil => rfl
    | cons _ _ ih => exact ih
  · obtain ⟨ref, -, rfl⟩ := List.mem_map.mp member
    exact nomatch isUse

/-! ### What resolving finds -/

@[simp]
theorem foundIn_reportIf (wrong : Prop) [Decidable wrong] (error : ScopeError) (token : Token) :
    foundIn (reportIf wrong error token) = [] := by
  by_cases holds : wrong <;> simp [reportIf, holds, foundIn, Note.resolution?]

@[simp]
theorem foundIn_declares (names : List Token) : foundIn (v.declares names) = [] := by
  induction names generalizing v with
  | nil => rfl
  | cons _ _ ih => simp [View.declares, ih]

@[simp]
theorem foundIn_returns (keyword : Token) (hasValue : Bool) : foundIn (v.returns keyword hasValue) = [] := by
  simp [View.returns]

theorem foundIn_seeks (occurrence : Occurrence) (name : Token) :
    foundIn (v.seeks occurrence name) =
      ((depthOf? v.scopes name.lexeme).map fun d => ⟨occurrence, name, d⟩).toList := by
  unfold View.seeks
  cases depthOf? v.scopes name.lexeme <;> rfl

section
variable (around : bottom ⊆ v.scopes.tail)
include around

/-- A name that is looked for: what is found is kept, and something is found if a scope further out declares it. -/
theorem covers_seeks (occurrence : Occurrence) (name : Token) (old : Option Nat) :
    Covers bottom [⟨occurrence, name, old, false⟩] [⟨occurrence, name, depthOf? v.scopes name.lexeme, false⟩]
      (foundIn (v.seeks occurrence name)) := by
  refine ⟨rfl, ?_, fun mention member _ _ scope isOuter declared => ?_⟩
  · rw [foundIn_seeks]
    cases depthOf? v.scopes name.lexeme <;> rfl
  · obtain rfl := List.mem_singleton.mp member
    rw [depthOf?, List.findIdx?_isSome]
    exact List.any_eq_true.mpr ⟨scope, List.mem_of_mem_tail (around isOuter), declared⟩

theorem covers_reads (name : Token) (old : Option Nat) :
    Covers bottom [⟨.variable_, name, old, false⟩] [⟨.variable_, name, depthOf? v.scopes name.lexeme, false⟩]
      (foundIn (v.reads name)) := by
  simpa [View.reads] using covers_seeks around .variable_ name old

theorem covers_this (keyword : Token) (old : Option Nat) :
    Covers bottom [⟨.this, keyword, old, false⟩] [⟨.this, keyword, v.thisDepth? keyword, false⟩]
      (foundIn (v.readsThis keyword)) := by
  rw [View.thisDepth?, View.readsThis]
  split
  · refine ⟨rfl, rfl, fun mention member _ notThis => ?_⟩
    obtain rfl := List.mem_singleton.mp member
    exact absurd rfl notThis
  · exact covers_seeks around .this keyword old

theorem covers_super (keyword : Token) (old : Option Nat) :
    Covers bottom [⟨.super, keyword, old, false⟩] [⟨.super, keyword, depthOf? v.scopes keyword.lexeme, false⟩]
      (foundIn (v.readsSuper keyword)) := by
  have silent : foundIn ((superError? v.classBody).map (.report · keyword)).toList = [] := by
    cases superError? v.classBody <;> rfl
  simpa [View.readsSuper, silent] using covers_seeks around .super keyword old

end

mutual

/-- The names of an expression are covered, by induction on the expression. -/
theorem covers_expr (around : bottom ⊆ v.scopes.tail) : ∀ e : Expr,
    Covers bottom (exprMentions e) (exprMentions (fillExpr v e)) (foundIn (exprNotes v e))
  | .binary left _ right | .logical left _ right | .set right _ left => by
    simpa only [exprMentions, fillExpr, exprNotes, foundIn_append] using
      (covers_expr around left).append (covers_expr around right)
  | .unary _ inner | .grouping inner | .get inner _ => covers_expr around inner
  | .conditional test yes no => by
    simpa only [exprMentions, fillExpr, exprNotes, foundIn_append, List.append_assoc] using
      (covers_expr around test).append ((covers_expr around yes).append (covers_expr around no))
  | .literal _ | .missing => covers_nil
  | .var name old => covers_reads around name old
  | .assign name value old => by
    simpa only [exprMentions, fillExpr, exprNotes, foundIn_append] using
      (covers_expr around value).append (covers_seeks around .assign name old)
  | .call callee _ args => by
    simpa only [exprMentions, fillExpr, exprNotes, foundIn_append] using
      (covers_expr around callee).append (covers_exprs around args)
  | .this keyword old => covers_this around keyword old
  | .super keyword _ old => covers_super around keyword old

theorem covers_exprs (around : bottom ⊆ v.scopes.tail) : ∀ es : List Expr,
    Covers bottom (exprsMentions es) (exprsMentions (fillExprs v es)) (foundIn (exprsNotes v es))
  | [] => covers_nil
  | e :: rest => by
    simpa only [exprsMentions, fillExprs, exprsNotes, foundIn_append] using
      (covers_expr around e).append (covers_exprs around rest)

end

theorem covers_option (around : bottom ⊆ v.scopes.tail) (e : Option Expr) :
    Covers bottom (optionMentions e) (optionMentions (e.map (fillExpr v))) (foundIn (optionNotes v e)) := by
  cases e with
  | none => exact covers_nil
  | some value => exact covers_expr around value

theorem covers_refs (around : bottom ⊆ v.scopes.tail) (refs : List NameRef) :
    Covers bottom (refs.map (refMention false)) ((refs.map (located v.scopes)).map (refMention false))
      (foundIn (refsNotes v refs)) := by
  induction refs with
  | nil => exact covers_nil
  | cons ref _ ih =>
    rw [refsNotes, List.flatMap_cons, foundIn_append]
    exact (covers_reads around ref.name ref.depth).append ih

theorem covers_superclass (around : bottom ⊆ v.scopes.tail) (name : Token) (superclass : Option NameRef) :
    Covers bottom (superclass.map (refMention false)).toList
      ((superclass.map (located v.scopes)).map (refMention false)).toList (foundIn (v.extends_ name superclass)) := by
  cases superclass with
  | none => exact covers_nil
  | some base =>
    rw [View.extends_, foundIn_append, foundIn_reportIf]
    exact covers_reads around base.name base.depth

def unplaced (places : List (Levels × Mention)) : List Mention := places.map Prod.snd

theorem unplaced_append (left right : List (Levels × Mention)) :
    unplaced (left ++ right) = unplaced left ++ unplaced right := List.map_append

theorem unplaced_placed (σ : Levels) (mentions : List Mention) : unplaced (placed σ mentions) = mentions := by
  rw [unplaced, placed, List.map_map]
  exact List.map_id mentions

theorem subset_set (around : bottom ⊆ v.scopes.tail) (names : List Token) : bottom ⊆ (v.set names).scopes.tail := by
  rwa [View.set, List.tail_modifyHead]

theorem subset_push (around : bottom ⊆ v.scopes.tail) (names : List String) : bottom ⊆ (v.push names).scopes.tail :=
  fun _ member => List.mem_of_mem_tail (around member)

theorem subset_members (around : bottom ⊆ v.scopes.tail) (superclass : Option NameRef) :
    bottom ⊆ (v.members superclass).scopes.tail := by
  cases superclass with
  | none => exact subset_push (v := v.inClass _) around _
  | some => exact subset_push (subset_push (v := v.inClass _) around _) _

mutual

/-- The names of a statement are covered, by induction on the statement. -/
theorem covers_stmt : ∀ (s : Stmt) {v : View}, bottom ⊆ v.scopes.tail → ∀ σ σ',
    Covers bottom (unplaced (stmtMentions σ s)) (unplaced (stmtMentions σ' (fillStmt v s))) (foundIn (stmtNotes v s))
  | .expression value, v, around, σ, σ' | .print value, v, around, σ, σ' => by
    simpa only [stmtMentions, fillStmt, stmtNotes, unplaced_placed] using covers_expr around value
  | .var name init, v, around, σ, σ' => by
    have outer : bottom ⊆ (v.put name false).scopes.tail := by rwa [View.put, List.tail_modifyHead]
    simpa only [stmtMentions, fillStmt, stmtNotes, unplaced_placed, foundIn_append, foundIn_declares, List.nil_append]
      using covers_option outer init
  | .block body, v, around, σ, σ' => covers_stmts body (subset_push around []) _ _
  | .ifElse test yes none, v, around, σ, σ' | .whileLoop test yes, v, around, σ, σ' => by
    simpa only [stmtMentions, fillStmt, stmtNotes, unplaced_append, unplaced_placed, foundIn_append] using
      (covers_expr around test).append (covers_stmt yes around σ σ')
  | .ifElse test yes (some no), v, around, σ, σ' => by
    simpa only [stmtMentions, fillStmt, stmtNotes, unplaced_append, unplaced_placed, foundIn_append, List.append_assoc]
      using (covers_expr around test).append ((covers_stmt yes around σ σ').append (covers_stmt no around σ σ'))
  | .breakLoop, _, _, _, _ | .missing, _, _, _, _ => covers_nil
  | .returnValue keyword value, v, around, σ, σ' => by
    simpa only [stmtMentions, fillStmt, stmtNotes, unplaced_placed, foundIn_append, foundIn_returns, List.nil_append]
      using covers_option around value
  | .function ⟨name, params, body⟩, v, around, σ, σ' => by
    rw [stmtNotes, foundIn_append, foundIn_declares, List.nil_append]
    exact covers_function ⟨name, params, body⟩ (subset_set around [name]) _ _
  | .classDef ⟨name, base, methods, own, traits⟩, v, around, σ, σ' => by
    have named := subset_set around [name]
    have members := subset_members named base
    simp only [stmtMentions, fillStmt, stmtNotes, unplaced_append, unplaced_placed, foundIn_append, foundIn_declares,
      List.nil_append, List.append_assoc]
    exact (covers_superclass named name base).append ((covers_included traits).append
      ((covers_functions methods members _ _).append (covers_functions own (subset_push members _) _ _)))
  | .traitDef ⟨name, traits, methods⟩, v, around, σ, σ' => by
    have named := subset_set around [name]
    simp only [stmtMentions, fillStmt, stmtNotes, unplaced_append, unplaced_placed, foundIn_append, foundIn_declares,
      List.nil_append]
    have inside : bottom ⊆ ((v.set [name]).inClass .trait).scopes.tail := named
    exact (covers_refs named traits).append (covers_functions methods (subset_push inside _) _ _)

theorem covers_stmts : ∀ (body : List Stmt) {v : View}, bottom ⊆ v.scopes.tail → ∀ σ σ',
    Covers bottom (unplaced (stmtsMentions σ body)) (unplaced (stmtsMentions σ' (fillStmts v body)))
      (foundIn (stmtsNotes v body))
  | [], _, _, _, _ => covers_nil
  | s :: rest, v, around, σ, σ' => by
    simpa only [stmtsMentions, fillStmts, stmtsNotes, unplaced_append, foundIn_append] using
      (covers_stmt s around σ σ').append (covers_stmts rest (subset_set around (declaredNames s)) _ _)

theorem covers_function : ∀ (f : FunDecl) {v : View} {context : FunctionContext}, bottom ⊆ v.scopes.tail →
    ∀ σ σ', Covers bottom (unplaced (functionMentions σ f)) (unplaced (functionMentions σ' (fillFunction v context f)))
      (foundIn (functionNotes v context f))
  | ⟨_, params, body⟩, v, context, around, σ, σ' => by
    rw [functionNotes, foundIn_append, foundIn_declares, List.nil_append]
    exact covers_stmts body (subset_set (subset_push (v := v.inFunction context) around []) _) _ _

theorem covers_functions : ∀ (fs : List FunDecl) {v : View} {kind : Token → FunctionContext},
    bottom ⊆ v.scopes.tail → ∀ σ σ', Covers bottom (unplaced (functionsMentions σ fs))
      (unplaced (functionsMentions σ' (fillFunctions v kind fs))) (foundIn (functionsNotes v kind fs))
  | [], _, _, _, _, _ => covers_nil
  | f :: rest, v, kind, around, σ, σ' => by
    simpa only [functionsMentions, fillFunctions, functionsNotes, unplaced_append, foundIn_append] using
      (covers_function f around σ σ').append (covers_functions rest around σ σ')

end

end

/-- A scope around the place declares the name that is mentioned there. -/
def DeclaredAround (place : Levels × Mention) : Prop :=
  ∃ region ∈ entered place.1, region.names.contains place.2.name.lexeme = true

theorem isSome_depthOf?_counted (σ : Levels) (name : String) :
    (depthOf? (namesOf (counted σ)) name).isSome = true ↔ ∃ region ∈ entered σ, region.names.contains name = true := by
  rw [depthOf?_counted, Option.isSome_map, depthOf?, List.findIdx?_isSome, namesOf, List.any_map, List.any_eq_true]
  rfl

/-- Resolving covers the names that a program mentions, but for the traits that its classes include. Every program that
is read is resolved, in whatever scopes: its names are mentioned as before, each name is looked for once and in order,
and it is found if a scope further out declares it. If nothing is reported, a name is left to be looked up globally
exactly if no scope around declares it; the traits that a class includes are left so in any case. So all that is declared
around is found exactly if no class includes a trait that is declared around. -/
theorem resolving_covers_mentions {source : String} {program : List Stmt}
    (read : (parseProgram (scan source).tokens).result = .ok program) :
    (∀ scopes, ∃ resolved found, (resolveStmts program).run (.start scopes) = .ok resolved found ∧
        Covers scopes.tail (unplaced (stmtsMentions [] program)) (unplaced (stmtsMentions [] resolved))
          found.resolutions.toList) ∧
      ∀ resolved found, (resolveStmts program).run (.start []) = .ok resolved found → found.errors = #[] →
        (∀ place ∈ stmtsMentions [] resolved,
          (place.2.isIncluded = false → (place.2.depth.isSome = true ↔ DeclaredAround place)) ∧
            (place.2.isIncluded = true → place.2.depth = none)) ∧
        ((∀ place ∈ stmtsMentions [] resolved, DeclaredAround place → place.2.depth.isSome = true) ↔
          ∀ place ∈ stmtsMentions [] resolved, place.2.isIncluded = true → ¬ DeclaredAround place) := by
  have parsed := Grammar.parsed_of_parseProgram read
  refine ⟨fun scopes => ?_, fun resolved found ran clean => ?_⟩
  · refine ⟨_, _, runs_stmts program parsed _ (.start scopes) rfl, ?_⟩
    have inside : scopes.tail ⊆ (State.start scopes).view.scopes.tail := List.Subset.refl _
    have covers := covers_stmts program inside [] []
    simpa [State.noting, State.start] using covers
  · have settled := (resolved_program parsed ran).settles (spelled_tokens source) clean
    have uses (place) (member : place ∈ stmtsMentions [] resolved) (isUse : place.2.isIncluded = false) :
        place.2.depth.isSome = true ↔ DeclaredAround place := by
      rw [(settled place member).found isUse]
      exact isSome_depthOf?_counted _ _
    refine ⟨fun place member => ⟨uses place member, (settled place member).included⟩, fun whole place member => ?_,
      fun apart place member declared => ?_⟩
    · intro isIncluded declared
      have found := whole place member declared
      rw [(settled place member).included isIncluded] at found
      cases found
    · cases included : place.2.isIncluded with
      | false => exact (uses place member included).mpr declared
      | true => exact absurd declared (apart place member included)

/-! A block with a trait, and a class that includes it. -/

def includingSource : String := "\x7btrait T\x7b\x7dclass C with T\x7b\x7d\x7d"

def includingProgram : List Stmt :=
  let name : Token := .named "T"
  [.block [.traitDef ⟨name, [], []⟩, .classDef ⟨.named "C", none, [], [], [⟨name, none⟩]⟩]]

/-- The trait is declared around the class, but it is not found. -/
theorem included_trait_uncovered :
    (parseProgram (scan includingSource).tokens).result = .ok includingProgram ∧
      (∃ found, (resolveStmts includingProgram).run (.start []) = .ok includingProgram found ∧ found.errors = #[] ∧
        found.resolutions = #[]) ∧
      ¬ ∀ place ∈ stmtsMentions [] includingProgram, DeclaredAround place → place.2.depth.isSome = true := by
  have read : (parseProgram (scan includingSource).tokens).result = .ok includingProgram :=
    congrArg Parse.result (parseProgram_of_steps rfl rfl (Grammar.derives_statements .oneLine includingProgram rfl))
  refine ⟨read, ⟨_, rfl, rfl, rfl⟩, fun whole => ?_⟩
  have apart := ((resolving_covers_mentions read).2 includingProgram _ rfl rfl).2.mp whole
  exact apart _ List.mem_cons_self rfl ⟨_, List.mem_cons_self, rfl⟩

end LoxLang.Scope
