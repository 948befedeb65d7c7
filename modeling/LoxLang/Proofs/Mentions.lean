import LoxLang.Proofs.LexicalScopes

/-!
The places of a program where a name is mentioned, in the order in which they are resolved, each with the scopes around
it. While a program is resolved, the scope of `this` in a method of the class itself is counted twice, but it is entered
only once when the method is called. So the scopes around a place are counted in one way and entered in another.
-/

namespace LoxLang.Scope

/-! ### Scopes that are counted and scopes that are entered -/

/-- A local scope around a place. -/
inductive Level where
  | scope (region : Region)
  /-- The scope of `this` in a method of the class itself. -/
  | own

def Level.region : Level → Region
  | .scope region => region
  | .own => thisRegion

/-- The scope is counted twice. -/
def Level.isOwn : Level → Bool
  | .scope _ => false
  | .own => true

abbrev Levels := List Level

variable {σ : Levels} {d : Nat}

def counted : Levels → Regions
  | [] => []
  | .scope region :: σ => region :: counted σ
  | .own :: σ => thisRegion :: thisRegion :: counted σ

def entered (σ : Levels) : Regions := σ.map Level.region

/-- How many more scopes are counted than entered. -/
def surplus (σ : Levels) : Nat := σ.countP Level.isOwn

/-- The scopes after the innermost one has declared a name. Nothing is ever declared right beside `this`. -/
def declaringIn (name : String) (isSet : Bool) : Levels → Levels
  | .scope inner :: outer => .scope ⟨inner.body, inner.names.put name isSet⟩ :: outer
  | σ => σ

/-- The innermost scope takes declarations. -/
def Open (σ : Levels) : Prop := ∀ level ∈ σ.head?, level.isOwn = false

/-- The scopes behind a statement. -/
def behindIn (s : Stmt) (σ : Levels) : Levels :=
  match declared? s with
  | some name => declaringIn name true σ
  | none => σ

/-- The scopes in which the methods of a class are made. A class that extends another has a scope with `super`. -/
def baseLevels (extends_ : Bool) (σ : Levels) : Levels := if extends_ then .scope superRegion :: σ else σ

/-- The scopes around the methods of a class. -/
def methodLevels (object : Level) (base : Option NameRef) (σ : Levels) : Levels :=
  object :: baseLevels base.isSome σ

theorem open_nil : Open [] := nofun

theorem open_scope (region : Region) (σ : Levels) : Open (.scope region :: σ) := by
  rintro level ⟨⟩
  rfl

theorem Open.declaringIn (isOpen : Open σ) (name : String) (isSet : Bool) : Open (declaringIn name isSet σ) := by
  unfold Scope.declaringIn
  split
  · exact open_scope _ _
  · exact isOpen

theorem Open.behindIn (isOpen : Open σ) (s : Stmt) : Open (behindIn s σ) := by
  unfold Scope.behindIn
  split
  · exact isOpen.declaringIn _ true
  · exact isOpen

theorem counted_declaringIn (isOpen : Open σ) (name : String) (isSet : Bool) :
    counted (declaringIn name isSet σ) = declaring name isSet (counted σ) := by
  cases σ with
  | nil => rfl
  | cons level =>
    cases level with
    | scope => rfl
    | own => exact nomatch isOpen .own rfl

theorem entered_declaringIn (isOpen : Open σ) (name : String) (isSet : Bool) :
    entered (declaringIn name isSet σ) = declaring name isSet (entered σ) := by
  cases σ with
  | nil => rfl
  | cons level =>
    cases level with
    | scope => rfl
    | own => exact nomatch isOpen .own rfl

theorem counted_behindIn (isOpen : Open σ) (s : Stmt) : counted (behindIn s σ) = behind s (counted σ) := by
  unfold behindIn behind
  cases declared? s with
  | none => rfl
  | some name => exact counted_declaringIn isOpen name true

theorem entered_behindIn (isOpen : Open σ) (s : Stmt) : entered (behindIn s σ) = behind s (entered σ) := by
  unfold behindIn behind
  cases declared? s with
  | none => rfl
  | some name => exact entered_declaringIn isOpen name true

theorem behindIn_nil (s : Stmt) : behindIn s [] = [] := by
  unfold behindIn
  cases declared? s <;> rfl

theorem counted_scopes (σ : Regions) : counted (σ.map .scope) = σ := by
  induction σ with
  | nil => rfl
  | cons _ _ ih => rw [List.map_cons, counted, ih]

theorem open_scopes (σ : Regions) : Open (σ.map .scope) := by
  cases σ with
  | nil => exact open_nil
  | cons region => exact open_scope region _

theorem counted_methodLevels (base : Option NameRef) (σ : Levels) :
    counted (methodLevels (.scope thisRegion) base σ) = classRegions base (counted σ) := by
  cases base <;> rfl

theorem counted_ownLevels (base : Option NameRef) (σ : Levels) :
    counted (methodLevels .own base σ) = thisRegion :: classRegions base (counted σ) := by
  cases base <;> rfl

theorem entered_methodLevels (object : Level) (isThis : object.region = thisRegion) (base : Option NameRef)
    (σ : Levels) : entered (methodLevels object base σ) = classRegions base (entered σ) := by
  have super_ : (Level.scope superRegion).region = superRegion := rfl
  cases base <;> simp [methodLevels, baseLevels, classRegions, entered, isThis, super_]

@[simp]
theorem surplus_scope (region : Region) (σ : Levels) : surplus (.scope region :: σ) = surplus σ := rfl

@[simp]
theorem surplus_own (σ : Levels) : surplus (.own :: σ) = surplus σ + 1 := List.countP_cons_of_pos rfl

/-- Each scope that is entered is counted, after as many more as are counted twice before it. -/
theorem getElem?_counted (σ : Levels) (d : Nat) : (counted σ)[d + surplus (σ.take d)]? = (entered σ)[d]? := by
  induction σ generalizing d with
  | nil => simp [counted, entered]
  | cons level σ ih =>
    cases d with
    | zero => cases level <;> rfl
    | succ d =>
      rw [List.take_succ_cons, entered, List.map_cons, List.getElem?_cons_succ, ← entered, ← ih d]
      cases level with
      | scope =>
        have same : d + 1 + surplus (σ.take d) = d + surplus (σ.take d) + 1 := by omega
        rw [surplus_scope, same]
        rfl
      | own =>
        have same : d + 1 + (surplus (σ.take d) + 1) = d + surplus (σ.take d) + 1 + 1 := by omega
        rw [surplus_own, same]
        rfl

theorem depthOf?_cons (inner : Declared) (outer : List Declared) (name : String) :
    depthOf? (inner :: outer) name = if inner.contains name then some 0 else (depthOf? outer name).map (· + 1) :=
  List.findIdx?_cons

/-- The depth of a name among the scopes that are counted. The scope that is counted besides is never the nearest. -/
theorem depthOf?_counted (σ : Levels) (name : String) :
    depthOf? (namesOf (counted σ)) name =
      (depthOf? (namesOf (entered σ)) name).map fun d => d + surplus (σ.take d) := by
  induction σ with
  | nil => rfl
  | cons level σ ih =>
    have inner : namesOf (entered (level :: σ)) = level.region.names :: namesOf (entered σ) := rfl
    rw [inner, depthOf?_cons]
    cases level with
    | scope region =>
      have outer : namesOf (counted (.scope region :: σ)) = region.names :: namesOf (counted σ) := rfl
      rw [outer, depthOf?_cons, ih]
      by_cases here : region.names.contains name = true
      · simp [Level.region, here, surplus]
      · cases found : depthOf? (namesOf (entered σ)) name with
        | none => simp [Level.region, here]
        | some => simp [Level.region, here, Nat.add_right_comm]
    | own =>
      have outer : namesOf (counted (.own :: σ)) = thisRegion.names :: thisRegion.names :: namesOf (counted σ) := rfl
      rw [outer, depthOf?_cons, depthOf?_cons, ih]
      by_cases here : thisRegion.names.contains name = true
      · simp [Level.region, here, surplus]
      · cases found : depthOf? (namesOf (entered σ)) name with
        | none => simp [Level.region, here]
        | some d =>
          have same : d + surplus (σ.take d) + 1 + 1 = d + 1 + (surplus (σ.take d) + 1) := by omega
          simp [Level.region, here, same]

/-- A name that is found among the scopes that are counted is found among those that are entered. -/
theorem depth_entered {name : String} (found : depthOf? (namesOf (counted σ)) name = some d) :
    ∃ e, depthOf? (namesOf (entered σ)) name = some e ∧ d = e + surplus (σ.take e) := by
  rw [depthOf?_counted, Option.map_eq_some_iff] at found
  obtain ⟨e, nearest, rfl⟩ := found
  exact ⟨e, nearest, rfl⟩

theorem declares_counted {name : String} {isSet : Bool} :
    Declares (counted σ) (d + surplus (σ.take d)) name isSet ↔ Declares (entered σ) d name isSet := by
  rw [Declares, Declares, getElem?_counted]

/-- The scope right inside one that is entered is entered, or it is that of `this` which is counted besides. -/
theorem declares_inner {e : Nat} (inside : e < σ.length) (next : d + 1 = e + 1 + surplus (σ.take (e + 1)))
    (object : Declares (counted σ) d "this" true) : Declares (entered σ) e "this" true := by
  have step : surplus (σ.take (e + 1)) = surplus (σ.take e) + surplus [σ[e]] := by
    rw [List.take_add_one, List.getElem?_eq_getElem inside]
    exact List.countP_append
  cases level : σ[e] with
  | own => exact ⟨thisRegion, by simp [entered, inside, level, Level.region], rfl⟩
  | scope =>
    rw [level, surplus_scope, show surplus [] = 0 from rfl] at step
    have same : d = e + surplus (σ.take e) := by omega
    rw [same] at object
    exact declares_counted.mp object

theorem surplus_take (straight : surplus σ = 0) (d : Nat) : surplus (σ.take d) = 0 := by
  have fewer : surplus (σ.take d) ≤ surplus σ := (List.take_sublist d σ).countP_le
  omega

/-! ### Mentions -/

/-- A name that is mentioned, with the depth kept there. The traits that a class includes are told apart. -/
structure Mention where
  occurrence : Occurrence
  name : Token
  depth : Option Nat
  isIncluded : Bool

variable {mention : Mention} {left right : List (Levels × Mention)}

/-- What a mention looks up. -/
def Mention.lookup (mention : Mention) : Lookup :=
  match mention.occurrence with
  | .variable_ | .this => .read mention.name mention.depth
  | .assign => .assign mention.name mention.depth
  | .super => .super mention.name mention.depth

mutual

/-- The names that an expression mentions, in the order in which they are resolved. -/
def exprMentions : Expr → List Mention
  | .binary left _ right | .logical left _ right => exprMentions left ++ exprMentions right
  | .unary _ operand => exprMentions operand
  | .conditional test yes no =>
    exprMentions test ++ exprMentions yes ++ exprMentions no
  | .grouping inner => exprMentions inner
  | .literal _ | .missing => []
  | .var name depth => [⟨.variable_, name, depth, false⟩]
  | .assign name value depth => exprMentions value ++ [⟨.assign, name, depth, false⟩]
  | .call callee _ args => exprMentions callee ++ exprsMentions args
  | .get object _ => exprMentions object
  | .set object _ value => exprMentions value ++ exprMentions object
  | .this keyword depth => [⟨.this, keyword, depth, false⟩]
  | .super keyword _ depth => [⟨.super, keyword, depth, false⟩]

def exprsMentions : List Expr → List Mention
  | [] => []
  | e :: rest => exprMentions e ++ exprsMentions rest

end

def optionMentions (e : Option Expr) : List Mention := (e.map exprMentions).getD []

def refMention (isIncluded : Bool) (ref : NameRef) : Mention := ⟨.variable_, ref.name, ref.depth, isIncluded⟩

def placed (σ : Levels) (mentions : List Mention) : List (Levels × Mention) := mentions.map (σ, ·)

mutual

/-- The names that a statement mentions, each with the scopes around it. -/
def stmtMentions (σ : Levels) : Stmt → List (Levels × Mention)
  | .expression value | .print value => placed σ (exprMentions value)
  | .var name init => placed (declaringIn name.lexeme false σ) (optionMentions init)
  | .block body => stmtsMentions (.scope ⟨body, .empty⟩ :: σ) body
  | .ifElse test yes none => placed σ (exprMentions test) ++ stmtMentions σ yes
  | .ifElse test yes (some no) =>
    placed σ (exprMentions test) ++ stmtMentions σ yes ++ stmtMentions σ no
  | .whileLoop test body => placed σ (exprMentions test) ++ stmtMentions σ body
  | .breakLoop | .missing => []
  | .returnValue _ value => placed σ (optionMentions value)
  | .function ⟨name, params, body⟩ => functionMentions (declaringIn name.lexeme true σ) ⟨name, params, body⟩
  | .classDef ⟨name, base, methods, classMethods, traits⟩ =>
    placed σ (base.map (refMention false)).toList ++
      placed (declaringIn name.lexeme true σ) (traits.map (refMention true)) ++
      functionsMentions (methodLevels (.scope thisRegion) base (declaringIn name.lexeme true σ)) methods ++
      functionsMentions (methodLevels .own base (declaringIn name.lexeme true σ)) classMethods
  | .traitDef ⟨name, traits, methods⟩ =>
    placed (declaringIn name.lexeme true σ) (traits.map (refMention false)) ++
      functionsMentions (.scope thisRegion :: declaringIn name.lexeme true σ) methods

def stmtsMentions (σ : Levels) : List Stmt → List (Levels × Mention)
  | [] => []
  | s :: rest => stmtMentions σ s ++ stmtsMentions (behindIn s σ) rest

def functionMentions (σ : Levels) : FunDecl → List (Levels × Mention)
  | ⟨_, params, body⟩ => stmtsMentions (.scope (functionRegion params body) :: σ) body

def functionsMentions (σ : Levels) : List FunDecl → List (Levels × Mention)
  | [] => []
  | f :: rest => functionMentions σ f ++ functionsMentions σ rest

end

/-- What is kept at a mention is right: the depth is that of the nearest scope among those that are counted, and the
lookup is settled there. The traits that a class includes have no depth. -/
structure Mention.Settled (σ : Levels) (mention : Mention) : Prop where
  included : mention.isIncluded = true → mention.depth = none
  found : mention.isIncluded = false → mention.depth = depthOf? (namesOf (counted σ)) mention.name.lexeme
  lookup : mention.isIncluded = false → mention.lookup.Settled (counted σ)

/-- The depth kept with a name leads to the scope that declares it, among the scopes that are entered. -/
def Mention.Straight (σ : Levels) (mention : Mention) : Prop :=
  ∀ d, mention.depth = some d → depthOf? (namesOf (entered σ)) mention.name.lexeme = some d

theorem Mention.Settled.isUse (settled : mention.Settled σ) (kept : mention.depth = some d) :
    mention.isIncluded = false :=
  Bool.eq_false_iff.mpr fun isIncluded => nomatch (settled.included isIncluded).symm.trans kept

/-- The depth that is kept counts the scopes that are entered, and some of them twice. -/
theorem Mention.Settled.entered (settled : mention.Settled σ) (kept : mention.depth = some d) :
    ∃ e, depthOf? (namesOf (entered σ)) mention.name.lexeme = some e ∧ d = e + surplus (σ.take e) :=
  depth_entered ((settled.found (settled.isUse kept)).symm.trans kept)

/-- The scope that declares the name, if there is one, is not outside of a method of a class itself. -/
def Mention.Near (σ : Levels) (mention : Mention) : Prop :=
  ∀ e, depthOf? (namesOf (entered σ)) mention.name.lexeme = some e → surplus (σ.take e) = 0

theorem Mention.Settled.straight (settled : mention.Settled σ) (near : mention.isIncluded = false → mention.Near σ) :
    mention.Straight σ := by
  intro d kept
  obtain ⟨e, found, rfl⟩ := settled.entered kept
  rwa [near (settled.isUse kept) e found, Nat.add_zero]

def Settles (places : List (Levels × Mention)) : Prop := ∀ place ∈ places, place.2.Settled place.1

theorem settles_nil : Settles [] := fun _ member => absurd member List.not_mem_nil

theorem settles_append (first : Settles left) (second : Settles right) : Settles (left ++ right) := fun place member =>
  (List.mem_append.mp member).elim (first place) (second place)

theorem settles_placed {mentions : List Mention} (all : ∀ mention ∈ mentions, mention.Settled σ) :
    Settles (placed σ mentions) := by
  intro place member
  obtain ⟨mention, isMention, rfl⟩ := List.mem_map.mp member
  exact all mention isMention

theorem placed_append (σ : Levels) (left right : List Mention) :
    placed σ (left ++ right) = placed σ left ++ placed σ right := List.map_append

/-! ### Lookups -/

/-- What is looked up at some places when the program runs. The traits that a class includes are left out. -/
def looked (places : List (Levels × Mention)) : List (Regions × Lookup) :=
  (places.filter fun place => !place.2.isIncluded).map fun place => (entered place.1, place.2.lookup)

theorem looked_append (left right : List (Levels × Mention)) : looked (left ++ right) = looked left ++ looked right := by
  rw [looked, List.filter_append, List.map_append, ← looked, ← looked]

theorem looked_subset (sub : left ⊆ right) : looked left ⊆ looked right :=
  List.map_subset _ (List.filter_subset _ sub)

theorem looked_included (σ : Levels) (refs : List NameRef) : looked (placed σ (refs.map (refMention true))) = [] := by
  simp [looked, placed, refMention]

theorem looked_refs (σ : Levels) (refs : List NameRef) :
    looked (placed σ (refs.map (refMention false))) = refs.map (refLookup (entered σ)) := by
  induction refs with
  | nil => rfl
  | cons _ _ ih => exact congrArg (List.cons _) ih

mutual

/-- The lookups of an expression are its mentions, in another order. -/
theorem perm_exprLookups (σ : Levels) : ∀ e : Expr,
    (exprLookups (entered σ) e).Perm (looked (placed σ (exprMentions e)))
  | .binary left op right | .logical left op right => by
    rw [exprLookups, exprMentions, placed_append, looked_append]
    exact (perm_exprLookups σ left).append (perm_exprLookups σ right)
  | .unary op operand => perm_exprLookups σ operand
  | .conditional test yes no => by
    rw [exprLookups, exprMentions, placed_append, placed_append, looked_append, looked_append]
    exact ((perm_exprLookups σ test).append (perm_exprLookups σ yes)).append (perm_exprLookups σ no)
  | .grouping inner => perm_exprLookups σ inner
  | .literal _ | .missing | .var _ _ | .this _ _ | .super _ _ _ => .refl _
  | .assign name value depth => by
    rw [exprLookups, exprMentions, placed_append, looked_append]
    exact ((perm_exprLookups σ value).cons _).trans (List.perm_append_singleton _ _).symm
  | .call callee paren args => by
    rw [exprLookups, exprMentions, placed_append, looked_append]
    exact (perm_exprLookups σ callee).append (perm_exprsLookups σ args)
  | .get object name => perm_exprLookups σ object
  | .set object name value => by
    rw [exprLookups, exprMentions, placed_append, looked_append]
    exact ((perm_exprLookups σ object).append (perm_exprLookups σ value)).trans List.perm_append_comm

theorem perm_exprsLookups (σ : Levels) : ∀ es : List Expr,
    (exprsLookups (entered σ) es).Perm (looked (placed σ (exprsMentions es)))
  | [] => .refl _
  | e :: rest => by
    rw [exprsLookups, exprsMentions, placed_append, looked_append]
    exact (perm_exprLookups σ e).append (perm_exprsLookups σ rest)

end

theorem perm_optionLookups (σ : Levels) (e : Option Expr) :
    (optionLookups (entered σ) e).Perm (looked (placed σ (optionMentions e))) := by
  cases e with
  | none => exact .refl _
  | some value => exact perm_exprLookups σ value

mutual

/-- The lookups of a statement are its mentions in the scopes that are entered, in another order. -/
theorem perm_stmtLookups : ∀ (s : Stmt) {σ : Levels}, Open σ →
    (stmtLookups (entered σ) s).Perm (looked (stmtMentions σ s))
  | .expression value, σ, _ | .print value, σ, _ => perm_exprLookups σ value
  | .var name init, σ, isOpen => by
    rw [stmtLookups, stmtMentions, ← entered_declaringIn isOpen]
    exact perm_optionLookups _ init
  | .block body, σ, _ => perm_stmtsLookups body (open_scope ⟨body, .empty⟩ σ)
  | .ifElse test yes none, σ, isOpen => by
    rw [stmtLookups, stmtMentions, looked_append]
    exact (perm_exprLookups σ test).append (perm_stmtLookups yes isOpen)
  | .ifElse test yes (some no), σ, isOpen => by
    rw [stmtLookups, stmtMentions, looked_append, looked_append]
    exact ((perm_exprLookups σ test).append (perm_stmtLookups yes isOpen)).append (perm_stmtLookups no isOpen)
  | .whileLoop test body, σ, isOpen => by
    rw [stmtLookups, stmtMentions, looked_append]
    exact (perm_exprLookups σ test).append (perm_stmtLookups body isOpen)
  | .breakLoop, _, _ | .missing, _, _ => .refl _
  | .returnValue keyword value, σ, _ => perm_optionLookups σ value
  | .function ⟨name, params, body⟩, σ, isOpen => by
    rw [stmtLookups, stmtMentions, ← entered_declaringIn isOpen]
    exact perm_functionLookups ⟨name, params, body⟩ _
  | .classDef ⟨name, base, methods, classMethods, traits⟩, σ, isOpen => by
    rw [stmtLookups, stmtMentions, looked_append, looked_append, looked_append, looked_included, List.append_nil,
      ← entered_declaringIn isOpen]
    refine (List.Perm.append ?_ ?_).append ?_
    · cases base <;> exact .refl _
    · rw [← entered_methodLevels (.scope thisRegion) rfl]
      exact perm_functionsLookups methods _
    · rw [← entered_methodLevels .own rfl]
      exact perm_functionsLookups classMethods _
  | .traitDef ⟨name, traits, methods⟩, σ, isOpen => by
    rw [stmtLookups, stmtMentions, looked_append, looked_refs, ← entered_declaringIn isOpen]
    exact List.Perm.append (.refl _) (perm_functionsLookups methods (.scope thisRegion :: _))

theorem perm_stmtsLookups : ∀ (body : List Stmt) {σ : Levels}, Open σ →
    (stmtsLookups (entered σ) body).Perm (looked (stmtsMentions σ body))
  | [], _, _ => .refl _
  | s :: rest, σ, isOpen => by
    rw [stmtsLookups, stmtsMentions, looked_append, ← entered_behindIn isOpen]
    exact (perm_stmtLookups s isOpen).append (perm_stmtsLookups rest (isOpen.behindIn s))

theorem perm_functionLookups : ∀ (f : FunDecl) (σ : Levels),
    (functionLookups (entered σ) f).Perm (looked (functionMentions σ f))
  | ⟨_, params, body⟩, σ => perm_stmtsLookups body (open_scope (functionRegion params body) σ)

theorem perm_functionsLookups : ∀ (fs : List FunDecl) (σ : Levels),
    (functionsLookups (entered σ) fs).Perm (looked (functionsMentions σ fs))
  | [], _ => .refl _
  | f :: rest, σ => by
    rw [functionsLookups, functionsMentions, looked_append]
    exact (perm_functionLookups f σ).append (perm_functionsLookups rest σ)

end

/-! ### Scopes that are counted twice -/

theorem surplus_declaringIn (name : String) (isSet : Bool) (σ : Levels) :
    surplus (declaringIn name isSet σ) = surplus σ := by
  unfold declaringIn
  split <;> rfl

theorem surplus_behindIn (s : Stmt) (σ : Levels) : surplus (behindIn s σ) = surplus σ := by
  unfold behindIn
  split
  · exact surplus_declaringIn _ _ σ
  · rfl

theorem surplus_methodLevels (base : Option NameRef) (σ : Levels) :
    surplus (methodLevels (.scope thisRegion) base σ) = surplus σ := by
  cases base <;> rfl

/-- All places are in scopes of which the same number is counted twice. -/
def AllIn (n : Nat) (places : List (Levels × Mention)) : Prop := ∀ place ∈ places, surplus place.1 = n

theorem allIn_nil (n : Nat) : AllIn n [] := fun _ member => absurd member List.not_mem_nil

theorem allIn_placed {n : Nat} (same : surplus σ = n) (mentions : List Mention) : AllIn n (placed σ mentions) := by
  intro place member
  obtain ⟨mention, -, rfl⟩ := List.mem_map.mp member
  exact same

theorem AllIn.append {n : Nat} (first : AllIn n left) (second : AllIn n right) :
    AllIn n (left ++ right) := fun place member => (List.mem_append.mp member).elim (first place) (second place)

mutual

/-- Without methods of classes themselves, no scope is counted twice. -/
theorem allIn_stmtMentions : ∀ (s : Stmt) {σ : Levels} {n : Nat}, s.NoClassMethods → surplus σ = n →
    AllIn n (stmtMentions σ s)
  | .expression value, σ, n, _, same | .print value, σ, n, _, same => allIn_placed same _
  | .var name init, σ, n, _, same => allIn_placed ((surplus_declaringIn _ _ σ).trans same) _
  | .block body, σ, n, simple, same => allIn_stmtsMentions body (σ := .scope ⟨body, .empty⟩ :: σ) simple same
  | .ifElse test yes none, σ, n, simple, same =>
    (allIn_placed same _).append (allIn_stmtMentions yes simple same)
  | .ifElse test yes (some no), σ, n, simple, same =>
    ((allIn_placed same _).append (allIn_stmtMentions yes simple.1 same)).append (allIn_stmtMentions no simple.2 same)
  | .whileLoop test body, σ, n, simple, same =>
    (allIn_placed same _).append (allIn_stmtMentions body simple same)
  | .breakLoop, _, n, _, _ | .missing, _, n, _, _ => allIn_nil n
  | .returnValue keyword value, σ, n, _, same => allIn_placed same _
  | .function ⟨name, params, body⟩, σ, n, simple, same =>
    allIn_functionMentions ⟨name, params, body⟩ simple ((surplus_declaringIn _ _ σ).trans same)
  | .classDef ⟨name, base, methods, own, traits⟩, σ, n, simple, same => by
    have named := (surplus_declaringIn name.lexeme true σ).trans same
    rw [stmtMentions, simple.1]
    refine ((allIn_placed same _).append (allIn_placed named _)).append ?_ |>.append (allIn_nil n)
    exact allIn_functionsMentions methods simple.2 ((surplus_methodLevels base _).trans named)
  | .traitDef ⟨name, traits, methods⟩, σ, n, simple, same => by
    have named := (surplus_declaringIn name.lexeme true σ).trans same
    exact (allIn_placed named _).append (allIn_functionsMentions methods simple named)

theorem allIn_stmtsMentions : ∀ (body : List Stmt) {σ : Levels} {n : Nat}, Stmt.AllNoClassMethods body →
    surplus σ = n → AllIn n (stmtsMentions σ body)
  | [], _, n, _, _ => allIn_nil n
  | s :: rest, σ, _, simple, same =>
    (allIn_stmtMentions s simple.1 same).append (allIn_stmtsMentions rest simple.2 ((surplus_behindIn s σ).trans same))

theorem allIn_functionMentions : ∀ (f : FunDecl) {σ : Levels} {n : Nat}, f.NoClassMethods → surplus σ = n →
    AllIn n (functionMentions σ f)
  | ⟨_, params, body⟩, σ, _, simple, same =>
    allIn_stmtsMentions body (σ := .scope (functionRegion params body) :: σ) simple same

theorem allIn_functionsMentions : ∀ (fs : List FunDecl) {σ : Levels} {n : Nat}, FunDecl.AllNoClassMethods fs →
    surplus σ = n → AllIn n (functionsMentions σ fs)
  | [], _, n, _, _ => allIn_nil n
  | f :: rest, _, _, simple, same =>
    (allIn_functionMentions f simple.1 same).append (allIn_functionsMentions rest simple.2 same)

end

end LoxLang.Scope
