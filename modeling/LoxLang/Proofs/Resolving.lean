import LoxLang.Proofs.Filling
import LoxLang.Proofs.Mentions

/-!
Resolving a program without a report gives every mention of a name the right depth among the scopes that are counted,
by induction on the program. It keeps the shape of the program, and every return is one that its function allows.
-/

namespace LoxLang

mutual

/-- The returns in a statement are allowed in a function of some kind, and so are those in functions declared there. -/
def Stmt.ReturnsFit (inside : Scope.FunctionContext) : Stmt → Prop
  | .block body => Stmt.AllReturnsFit inside body
  | .ifElse _ yes none => yes.ReturnsFit inside
  | .ifElse _ yes (some no) => yes.ReturnsFit inside ∧ no.ReturnsFit inside
  | .whileLoop _ body => body.ReturnsFit inside
  | .returnValue _ value => inside ≠ .none ∧ (value.isSome = true → inside ≠ .initializer)
  | .function decl => decl.ReturnsFit .function
  | .classDef ⟨_, _, methods, own, _⟩ =>
    FunDecl.AllReturnsFit Scope.methodContext methods ∧ FunDecl.AllReturnsFit (fun _ => .method) own
  | .traitDef ⟨_, _, methods⟩ => FunDecl.AllReturnsFit (fun _ => .method) methods
  | .expression _ | .print _ | .var .. | .breakLoop | .missing => True

def Stmt.AllReturnsFit (inside : Scope.FunctionContext) : List Stmt → Prop
  | [] => True
  | s :: rest => s.ReturnsFit inside ∧ Stmt.AllReturnsFit inside rest

def FunDecl.ReturnsFit (inside : Scope.FunctionContext) : FunDecl → Prop
  | ⟨_, _, body⟩ => Stmt.AllReturnsFit inside body

/-- The same for functions whose kinds follow from their names. -/
def FunDecl.AllReturnsFit (kind : Token → Scope.FunctionContext) : List FunDecl → Prop
  | [] => True
  | f :: rest => f.ReturnsFit (kind f.name) ∧ FunDecl.AllReturnsFit kind rest

end

namespace Scope

/-- The words of the source are spelled as their kinds say. -/
structure Spelled (source : Token → Prop) : Prop where
  names : ∀ t, source t → t.kind = .identifier → t.lexeme ≠ "this" ∧ t.lexeme ≠ "super"
  this_ : ∀ t, source t → t.kind = .kwThis → t.lexeme = "this"
  super_ : ∀ t, source t → t.kind = .kwSuper → t.lexeme = "super"

/-! ### Scopes that declare a name -/

variable {σ : Regions} {name other : String} {isSet now : Bool} {d : Nat} {region : Region}

@[simp]
theorem declares_nil : ¬ Declares [] d name isSet := by simp [Declares]

@[simp]
theorem declares_cons_zero : Declares (region :: σ) 0 name isSet ↔ region.names.get? name = some isSet := by
  simp [Declares]

@[simp]
theorem declares_cons_succ : Declares (region :: σ) (d + 1) name isSet ↔ Declares σ d name isSet := by
  simp [Declares]

theorem declares_declaring (different : other ≠ name) :
    Declares (declaring name now σ) d other isSet ↔ Declares σ d other isSet := by
  cases σ with
  | nil => rfl
  | cons => cases d <;> simp [declaring, Bindings.get?_put_of_ne _ _ different]

theorem declares_declaring_succ :
    Declares (declaring name now σ) (d + 1) other isSet ↔ Declares σ (d + 1) other isSet := by
  cases σ with
  | nil => rfl
  | cons => simp [declaring]

theorem declares_declaring_self (declared : Declares (declaring name now σ) d name isSet) :
    (d = 0 ∧ isSet = now) ∨ Declares σ d name isSet := by
  cases σ with
  | nil => exact absurd declared declares_nil
  | cons =>
    cases d with
    | zero =>
      rw [declaring, declares_cons_zero, Bindings.get?_put_self] at declared
      exact .inl ⟨rfl, (Option.some.inj declared).symm⟩
    | succ => exact .inr (declares_declaring_succ.mp declared)

theorem depthOf?_declaring (different : other ≠ name) :
    depthOf? (namesOf (declaring name now σ)) other = depthOf? (namesOf σ) other := by
  cases σ with
  | nil => rfl
  | cons =>
    simp [depthOf?, namesOf, declaring, List.findIdx?_cons, Bindings.contains, Bindings.get?_put_of_ne _ _ different]

theorem declares_of_depth (found : depthOf? (namesOf σ) name = some d) : ∃ isSet, Declares σ d name isSet := by
  obtain ⟨inside, contained, -⟩ := List.findIdx?_eq_some_iff_getElem.mp found
  have inside' : d < σ.length := by simpa [namesOf] using inside
  obtain ⟨isSet, bound⟩ := Option.isSome_iff_exists.mp (by simpa [namesOf, Bindings.contains] using contained)
  exact ⟨isSet, σ[d], List.getElem?_eq_getElem inside', bound⟩

/-! ### Where an expression and where a statement may stand -/

/-- The scopes around an expression: only the innermost may have a name that is not set, and a scope with `super` is
around one with `this`. -/
structure Surrounds (σ : Regions) (inside : ClassContext) : Prop where
  object : ∀ d, ¬ Declares σ d "this" false
  outer : ∀ d name isSet, Declares σ (d + 1) name isSet → isSet = true
  base : ∀ d isSet, Declares σ d "super" isSet → ∃ inner, d = inner + 1 ∧ Declares σ inner "this" true
  extended : inside = .subclass → ∃ d, depthOf? (namesOf σ) "super" = some d

/-- The scopes around a statement: every name is set. -/
structure Encloses (σ : Regions) (inside : ClassContext) : Prop extends Surrounds σ inside where
  all : ∀ d name isSet, Declares σ d name isSet → isSet = true

variable {inside : ClassContext}

theorem Surrounds.sets (around : Surrounds σ inside) (found : depthOf? (namesOf σ) name = some d)
    (unset : ¬ Declares σ 0 name false) : Declares σ d name true := by
  obtain ⟨isSet, declared⟩ := declares_of_depth found
  cases isSet with
  | true => exact declared
  | false =>
    cases d with
    | zero => exact absurd declared unset
    | succ d => exact absurd (around.outer d name false declared) Bool.false_ne_true

theorem Surrounds.sets_super (around : Surrounds σ .subclass) :
    ∃ d, depthOf? (namesOf σ) "super" = some (d + 1) ∧ Declares σ (d + 1) "super" true ∧ Declares σ d "this" true := by
  obtain ⟨d, found⟩ := around.extended rfl
  obtain ⟨isSet, declared⟩ := declares_of_depth found
  obtain ⟨inner, rfl, object⟩ := around.base d isSet declared
  obtain rfl := around.outer inner _ isSet declared
  exact ⟨inner, found, declared, object⟩

theorem encloses_nil : Encloses [] .none :=
  { object := by simp, outer := by simp, base := by simp, extended := nofun, all := by simp }

theorem Encloses.surrounds_declaring (around : Encloses σ inside) (isName : name ≠ "this" ∧ name ≠ "super")
    (now : Bool) : Surrounds (declaring name now σ) inside where
  object d declared := around.object d ((declares_declaring isName.1.symm).mp declared)
  outer d other isSet declared := around.outer d other isSet (declares_declaring_succ.mp declared)
  base d isSet declared := by
    obtain ⟨inner, rfl, object⟩ := around.base d isSet ((declares_declaring isName.2.symm).mp declared)
    exact ⟨inner, rfl, (declares_declaring isName.1.symm).mpr object⟩
  extended isSubclass := by
    rw [depthOf?_declaring isName.2.symm]
    exact around.extended isSubclass

theorem Encloses.declaring (around : Encloses σ inside) (isName : name ≠ "this" ∧ name ≠ "super") :
    Encloses (declaring name true σ) inside where
  toSurrounds := around.surrounds_declaring isName true
  all d other isSet declared := by
    by_cases same : other = name
    · subst same
      rcases declares_declaring_self declared with ⟨-, now⟩ | declared
      · exact now
      · exact around.all d other isSet declared
    · exact around.all d other isSet ((declares_declaring same).mp declared)

theorem get?_putAll_set (b : Declared) (names : List String) :
    (b.putAll (names.map (·, true))).get? name = if name ∈ names then some true else b.get? name := by
  induction names generalizing b with
  | nil => simp [Bindings.putAll]
  | cons first rest ih =>
    have step : (b.putAll ((first :: rest).map (·, true))).get? name =
        if name ∈ rest then some true else (b.put first true).get? name := ih (b.put first true)
    rw [step]
    by_cases later : name ∈ rest
    · simp [later]
    · by_cases same : name = first
      · simp [same, Bindings.get?_put_self]
      · simp [later, same, Bindings.get?_put_of_ne b true same]

theorem get?_setNames (names : List String) :
    (setNames names).get? name = if name ∈ names then some true else none :=
  get?_putAll_set .empty names

theorem Encloses.push (around : Encloses σ inside)
    (set : ∀ name isSet, region.names.get? name = some isSet → isSet = true ∧ name ≠ "super") :
    Encloses (region :: σ) inside where
  object
    | 0, declared => Bool.false_ne_true (set _ _ (declares_cons_zero.mp declared)).1
    | d + 1, declared => around.object d (declares_cons_succ.mp declared)
  outer d other isSet declared := around.all d other isSet (declares_cons_succ.mp declared)
  base
    | 0, isSet, declared => absurd rfl (set _ _ (declares_cons_zero.mp declared)).2
    | d + 1, isSet, declared => by
      obtain ⟨inner, rfl, object⟩ := around.base d isSet (declares_cons_succ.mp declared)
      exact ⟨inner + 1, rfl, declares_cons_succ.mpr object⟩
  extended isSubclass := by
    obtain ⟨d, found⟩ := around.extended isSubclass
    have fresh : region.names.contains "super" = false := by
      cases bound : region.names.get? "super" with
      | none => simp [Bindings.contains, bound]
      | some => exact absurd rfl (set _ _ bound).2
    refine ⟨d + 1, ?_⟩
    simpa [depthOf?, namesOf, List.findIdx?_cons, fresh] using found
  all
    | 0, other, isSet, declared => (set _ _ (declares_cons_zero.mp declared)).1
    | d + 1, other, isSet, declared => around.all d other isSet (declares_cons_succ.mp declared)

theorem set_setNames {names : List String} (body : List Stmt) (other : ∀ name ∈ names, name ≠ "super") :
    ∀ name isSet, (Region.mk body (setNames names)).names.get? name = some isSet → isSet = true ∧ name ≠ "super" := by
  intro name isSet bound
  simp only [get?_setNames] at bound
  split at bound
  case isTrue member => exact ⟨(Option.some.inj bound).symm, other name member⟩
  case isFalse => exact absurd bound nofun

theorem Encloses.within (around : Encloses σ inside) {now : ClassContext} (plain : now ≠ .subclass) :
    Encloses σ now :=
  { around with extended := fun isSubclass => absurd isSubclass plain }

theorem Encloses.traitMethods (around : Encloses σ inside) : Encloses (thisRegion :: σ) .trait := by
  have plain : Encloses σ .trait := around.within nofun
  exact plain.push (set_setNames [] (by simp))

theorem Encloses.methods (around : Encloses σ inside) (superclass : Option NameRef) :
    Encloses (classRegions superclass σ) (bodyOf superclass) := by
  cases superclass with
  | none =>
    have plain : Encloses σ .plainClass := around.within nofun
    exact plain.push (set_setNames [] (by simp))
  | some base =>
    -- The scope of `super` alone is not one that a method may stand in, so both scopes are opened at once.
    have this_ (name : String) : thisRegion.names.get? name = if name = "this" then some true else none := by
      simp [thisRegion, get?_setNames]
    have super_ (name : String) : superRegion.names.get? name = if name = "super" then some true else none := by
      simp [superRegion, get?_setNames]
    have all : ∀ d name isSet, Declares (thisRegion :: superRegion :: σ) d name isSet → isSet = true
      | 0, name, isSet, declared => by
        rw [declares_cons_zero, this_] at declared
        split at declared <;> simp_all
      | 1, name, isSet, declared => by
        rw [declares_cons_succ, declares_cons_zero, super_] at declared
        split at declared <;> simp_all
      | d + 2, name, isSet, declared => around.all d name isSet (by simpa using declared)
    refine ⟨⟨fun d declared => Bool.false_ne_true (all d _ _ declared), fun d => all (d + 1), ?_, fun _ => ⟨1, ?_⟩⟩, all⟩
    · intro d isSet declared
      match d with
      | 0 => simp [classRegions, this_] at declared
      | 1 => exact ⟨0, rfl, by simp [classRegions, this_]⟩
      | d + 2 =>
        obtain ⟨inner, rfl, object⟩ := around.base d isSet (by simpa [classRegions] using declared)
        exact ⟨inner + 2, rfl, by simpa [classRegions] using object⟩
    · simp [classRegions, depthOf?, namesOf, List.findIdx?_cons, Bindings.contains, this_, super_]

/-! ### The shape of what is filled in -/

variable {source : Token → Prop} {v : View}

mutual

@[simp]
theorem parsed_fillExpr : ∀ e : Expr, (fillExpr v e).Parsed source ↔ e.Parsed source
  | .binary left _ right | .logical left _ right => and_congr (parsed_fillExpr left) (parsed_fillExpr right)
  | .unary _ inner | .grouping inner | .get inner _ => parsed_fillExpr inner
  | .conditional test yes no =>
    and_congr (parsed_fillExpr test) (and_congr (parsed_fillExpr yes) (parsed_fillExpr no))
  | .literal _ | .var .. | .this .. | .super .. | .missing => .rfl
  | .assign _ value _ => and_congr .rfl (parsed_fillExpr value)
  | .call callee _ args => and_congr (parsed_fillExpr callee) (parsed_fillExprs args)
  | .set object _ value => and_congr (parsed_fillExpr object) (parsed_fillExpr value)

theorem parsed_fillExprs : ∀ es : List Expr, Expr.AllParsed source (fillExprs v es) ↔ Expr.AllParsed source es
  | [] => .rfl
  | e :: rest => and_congr (parsed_fillExpr e) (parsed_fillExprs rest)

end

theorem parsed_fillOption (e : Option Expr) :
    Expr.OptionParsed source (e.map (fillExpr v)) ↔ Expr.OptionParsed source e := by
  cases e <;> simp [Expr.OptionParsed]

@[simp]
theorem isPlain_fillStmt (v : View) (s : Stmt) : (fillStmt v s).isPlain = s.isPlain := by
  cases s with
  | ifElse _ _ no => cases no <;> rfl
  | classDef decl | traitDef decl => cases decl; rfl
  | _ => rfl

theorem declared?_fillStmt (v : View) (s : Stmt) : declared? (fillStmt v s) = declared? s := by
  cases s with
  | ifElse _ _ no => cases no <;> rfl
  | function decl | classDef decl | traitDef decl => cases decl; rfl
  | _ => rfl

mutual

theorem parsed_fillStmt : ∀ (s : Stmt) (v : View), (fillStmt v s).Parsed source ↔ s.Parsed source
  | .expression value, v | .print value, v => parsed_fillExpr value
  | .var _ init, v => and_congr .rfl (parsed_fillOption init)
  | .block body, v => parsed_fillStmts body _
  | .ifElse _ yes none, v | .whileLoop _ yes, v => by
    simp [fillStmt, Stmt.Parsed, parsed_fillStmt yes v]
  | .ifElse _ yes (some no), v => by
    simp [fillStmt, Stmt.Parsed, parsed_fillStmt yes v, parsed_fillStmt no v]
  | .breakLoop, _ | .missing, _ => .rfl
  | .returnValue _ value, v => parsed_fillOption value
  | .function f, v => parsed_fillFunction f _ _
  | .classDef ⟨_, _, methods, own, _⟩, v =>
    and_congr .rfl (and_congr .rfl (and_congr (parsed_fillFunctions methods _ _) (parsed_fillFunctions own _ _)))
  | .traitDef ⟨_, _, methods⟩, v => and_congr .rfl (parsed_fillFunctions methods _ _)

theorem parsed_fillStmts : ∀ (body : List Stmt) (v : View),
    Stmt.AllParsed source (fillStmts v body) ↔ Stmt.AllParsed source body
  | [], _ => .rfl
  | s :: rest, v => and_congr (parsed_fillStmt s v) (parsed_fillStmts rest _)

theorem parsed_fillFunction : ∀ (f : FunDecl) (v : View) (context : FunctionContext),
    (fillFunction v context f).Parsed source ↔ f.Parsed source
  | ⟨_, _, body⟩, _, _ => and_congr .rfl (and_congr .rfl (parsed_fillStmts body _))

theorem parsed_fillFunctions : ∀ (fs : List FunDecl) (v : View) (kind : Token → FunctionContext),
    FunDecl.AllParsed source (fillFunctions v kind fs) ↔ FunDecl.AllParsed source fs
  | [], _, _ => .rfl
  | f :: rest, v, kind => and_congr (parsed_fillFunction f v _) (parsed_fillFunctions rest v kind)

end

mutual

theorem noClassMethods_fillStmt : ∀ (s : Stmt) (v : View), (fillStmt v s).NoClassMethods ↔ s.NoClassMethods
  | .expression _, _ | .print _, _ | .var .., _ | .breakLoop, _ | .returnValue .., _ | .missing, _ => .rfl
  | .block body, v => noClassMethods_fillStmts body _
  | .ifElse _ yes none, v | .whileLoop _ yes, v => noClassMethods_fillStmt yes v
  | .ifElse _ yes (some no), v =>
    and_congr (noClassMethods_fillStmt yes v) (noClassMethods_fillStmt no v)
  | .function f, v => noClassMethods_fillFunction f _ _
  | .classDef ⟨_, _, methods, own, _⟩, v => by
    refine and_congr ?_ (noClassMethods_fillFunctions methods _ _)
    cases own <;> simp [fillFunctions]
  | .traitDef ⟨_, _, methods⟩, v => noClassMethods_fillFunctions methods _ _

theorem noClassMethods_fillStmts : ∀ (body : List Stmt) (v : View),
    Stmt.AllNoClassMethods (fillStmts v body) ↔ Stmt.AllNoClassMethods body
  | [], _ => .rfl
  | s :: rest, v => and_congr (noClassMethods_fillStmt s v) (noClassMethods_fillStmts rest _)

theorem noClassMethods_fillFunction : ∀ (f : FunDecl) (v : View) (context : FunctionContext),
    (fillFunction v context f).NoClassMethods ↔ f.NoClassMethods
  | ⟨_, _, body⟩, _, _ => noClassMethods_fillStmts body _

theorem noClassMethods_fillFunctions : ∀ (fs : List FunDecl) (v : View) (kind : Token → FunctionContext),
    FunDecl.AllNoClassMethods (fillFunctions v kind fs) ↔ FunDecl.AllNoClassMethods fs
  | [], _, _ => .rfl
  | f :: rest, v, kind => and_congr (noClassMethods_fillFunction f v _) (noClassMethods_fillFunctions rest v kind)

end

/-! ### Where nothing is reported -/

/-- Nothing has been reported. -/
def Quiet (notes : List Note) : Prop := reportsOf notes = []

@[simp]
theorem quiet_nil : Quiet [] := rfl

variable {left right : List Note}

@[simp]
theorem quiet_append : Quiet (left ++ right) ↔ Quiet left ∧ Quiet right := by
  simp [Quiet]

@[simp]
theorem quiet_report (error : ScopeError) (token : Token) (notes : List Note) :
    ¬ Quiet (.report error token :: notes) := by simp [Quiet, reportsOf, Note.report?]

@[simp]
theorem quiet_reportIf {wrong : Prop} [Decidable wrong] {error : ScopeError} {token : Token} :
    Quiet (reportIf wrong error token) ↔ ¬ wrong := by
  by_cases holds : wrong <;> simp [reportIf, holds]

@[simp]
theorem quiet_seeks (occurrence : Occurrence) (name : Token) : Quiet (v.seeks occurrence name) := by
  unfold View.seeks
  cases depthOf? v.scopes name.lexeme <;> rfl

@[simp]
theorem quiet_reads {name : Token} : Quiet (v.reads name) ↔ v.innermost? name.lexeme ≠ some false := by
  simp [View.reads]

variable {keyword : Token}

@[simp]
theorem quiet_readsThis : Quiet (v.readsThis keyword) ↔ v.classBody ≠ .none := by
  by_cases outside : v.classBody = .none <;> simp [View.readsThis, outside]

@[simp]
theorem quiet_readsSuper : Quiet (v.readsSuper keyword) ↔ v.classBody = .subclass := by
  cases context : v.classBody <;> simp [View.readsSuper, context, superError?]

mutual

/-- If nothing is reported, the returns are allowed. -/
theorem returnsFit_fillStmt : ∀ (s : Stmt) {v : View}, Quiet (stmtNotes v s) → (fillStmt v s).ReturnsFit v.function
  | .expression _, _, _ | .print _, _, _ | .var .., _, _ | .breakLoop, _, _ | .missing, _, _ => trivial
  | .block body, v, quiet => returnsFit_fillStmts body quiet
  | .ifElse _ yes none, v, quiet | .whileLoop _ yes, v, quiet =>
    returnsFit_fillStmt yes (quiet_append.mp quiet).2
  | .ifElse _ yes (some no), v, quiet => by
    obtain ⟨first, second⟩ := quiet_append.mp (quiet_append.mp quiet).2
    exact ⟨returnsFit_fillStmt yes first, returnsFit_fillStmt no second⟩
  | .returnValue _ value, v, quiet => by
    obtain ⟨inside, noValue⟩ := quiet_append.mp (quiet_append.mp quiet).1
    rw [quiet_reportIf] at inside noValue
    exact ⟨inside, fun isValue isInitializer => noValue ⟨by simpa using isValue, isInitializer⟩⟩
  | .function f, v, quiet => returnsFit_fillFunction f (quiet_append.mp quiet).2
  | .classDef ⟨_, _, methods, own, _⟩, _, quiet => by
    obtain ⟨ofInstances, ofClass⟩ := quiet_append.mp (quiet_append.mp (quiet_append.mp quiet).2).2
    exact ⟨returnsFit_fillFunctions methods ofInstances, returnsFit_fillFunctions own ofClass⟩
  | .traitDef ⟨_, _, methods⟩, v, quiet =>
    returnsFit_fillFunctions methods (quiet_append.mp (quiet_append.mp quiet).2).2

theorem returnsFit_fillStmts : ∀ (body : List Stmt) {v : View}, Quiet (stmtsNotes v body) →
    Stmt.AllReturnsFit v.function (fillStmts v body)
  | [], _, _ => trivial
  | s :: rest, _, quiet =>
    ⟨returnsFit_fillStmt s (quiet_append.mp quiet).1, returnsFit_fillStmts rest (quiet_append.mp quiet).2⟩

theorem returnsFit_fillFunction : ∀ (f : FunDecl) {v : View} {context : FunctionContext},
    Quiet (functionNotes v context f) → (fillFunction v context f).ReturnsFit context
  | ⟨_, _, body⟩, _, _, quiet => returnsFit_fillStmts body (quiet_append.mp quiet).2

theorem returnsFit_fillFunctions : ∀ (fs : List FunDecl) {v : View} {kind : Token → FunctionContext},
    Quiet (functionsNotes v kind fs) → FunDecl.AllReturnsFit kind (fillFunctions v kind fs)
  | [], _, _, _ => trivial
  | ⟨_, _, _⟩ :: rest, _, _, quiet =>
    ⟨returnsFit_fillFunction _ (quiet_append.mp quiet).1, returnsFit_fillFunctions rest (quiet_append.mp quiet).2⟩

end

/-! ### Expressions -/

section
variable {σ : Levels} (names : namesOf (counted σ) = v.scopes) (around : Surrounds (counted σ) v.classBody)
include names around

theorem settled_read {name : Token} (quiet : Quiet (v.reads name)) :
    (Mention.mk .variable_ name (depthOf? v.scopes name.lexeme) false).Settled σ := by
  have unset := quiet_reads.mp quiet
  refine ⟨fun included => (by cases included), fun _ => by rw [names], fun _ => ⟨by rw [names], fun d found => ?_⟩⟩
  refine around.sets (by rw [names]; exact found) fun declared => unset ?_
  rw [View.innermost?, ← names]
  cases counts : counted σ with
  | nil => exact absurd (counts ▸ declared) declares_nil
  | cons => simpa [namesOf, counts] using declared

theorem settled_this (isThis : keyword.lexeme = "this") (quiet : Quiet (v.readsThis keyword)) :
    (Mention.mk .this keyword (v.thisDepth? keyword) false).Settled σ := by
  rw [View.thisDepth?, if_neg (quiet_readsThis.mp quiet)]
  refine ⟨fun included => (by cases included), fun _ => by rw [names], fun _ => ⟨by rw [names], fun d found => ?_⟩⟩
  rw [isThis] at found ⊢
  exact around.sets (by rw [names]; exact found) (around.object 0)

theorem settled_super (isSuper : keyword.lexeme = "super") (quiet : Quiet (v.readsSuper keyword)) :
    (Mention.mk .super keyword (depthOf? v.scopes keyword.lexeme) false).Settled σ := by
  rw [quiet_readsSuper.mp quiet] at around
  refine ⟨fun included => (by cases included), fun _ => by rw [names], fun _ => ?_⟩
  rw [Mention.lookup, isSuper, ← names]
  exact around.sets_super

end

section
variable {σ : Levels}

/-- Where nothing is reported in either of two parts, the names of both are settled if those of each are. -/
theorem settled_pair {first second : List Mention} (quiet : Quiet (left ++ right))
    (one : Quiet left → ∀ mention ∈ first, mention.Settled σ) (two : Quiet right → ∀ mention ∈ second, mention.Settled σ) :
    ∀ mention ∈ first ++ second, mention.Settled σ :=
  List.forall_mem_append.mpr ⟨one (quiet_append.mp quiet).1, two (quiet_append.mp quiet).2⟩

variable (spelled : Spelled source) (names : namesOf (counted σ) = v.scopes) (around : Surrounds (counted σ) v.classBody)
include spelled names around

-- In a mutual block the linter overlooks what the recursive calls use.
set_option linter.unusedSectionVars false in
mutual

/-- Where nothing is reported, the names of an expression are settled, by induction on the expression. -/
theorem settled_expr : ∀ e : Expr, e.Parsed source → Quiet (exprNotes v e) →
    ∀ mention ∈ exprMentions (fillExpr v e), mention.Settled σ
  | .binary left _ right, parsed, quiet | .logical left _ right, parsed, quiet =>
    settled_pair quiet (settled_expr left parsed.1) (settled_expr right parsed.2)
  | .unary _ inner, parsed, quiet | .grouping inner, parsed, quiet | .get inner _, parsed, quiet =>
    settled_expr inner parsed quiet
  | .conditional test yes no, parsed, quiet => by
    rw [exprNotes, ← List.append_assoc] at quiet
    exact settled_pair quiet
      (fun both => settled_pair both (settled_expr test parsed.1) (settled_expr yes parsed.2.1))
      (settled_expr no parsed.2.2)
  | .literal _, _, _ | .missing, _, _ => fun _ member => absurd member List.not_mem_nil
  | .var _ _, _, quiet => List.forall_mem_singleton.mpr (settled_read names around quiet)
  | .assign name value _, parsed, quiet => by
    have found : depthOf? v.scopes name.lexeme = depthOf? (namesOf (counted σ)) name.lexeme := by rw [names]
    exact settled_pair quiet (settled_expr value parsed.2)
      fun _ => List.forall_mem_singleton.mpr ⟨nofun, fun _ => found, fun _ => found⟩
  | .call callee _ args, parsed, quiet =>
    settled_pair quiet (settled_expr callee parsed.1) (settled_exprs args parsed.2)
  | .set object _ value, parsed, quiet => settled_pair quiet (settled_expr value parsed.2) (settled_expr object parsed.1)
  | .this keyword _, parsed, quiet =>
    List.forall_mem_singleton.mpr (settled_this names around (spelled.this_ keyword parsed.2 parsed.1) quiet)
  | .super keyword _ _, parsed, quiet =>
    List.forall_mem_singleton.mpr (settled_super names around (spelled.super_ keyword parsed.2 parsed.1) quiet)

theorem settled_exprs : ∀ es : List Expr, Expr.AllParsed source es →
    Quiet (exprsNotes v es) → ∀ mention ∈ exprsMentions (fillExprs v es), mention.Settled σ
  | [], _, _ => fun _ member => absurd member List.not_mem_nil
  | e :: rest, parsed, quiet => settled_pair quiet (settled_expr e parsed.1) (settled_exprs rest parsed.2)

end

theorem settles_expr (e : Expr) (parsed : e.Parsed source) (quiet : Quiet (exprNotes v e)) :
    Settles (placed σ (exprMentions (fillExpr v e))) :=
  settles_placed (settled_expr spelled names around e parsed quiet)

theorem settles_option (e : Option Expr) (parsed : Expr.OptionParsed source e)
    (quiet : Quiet (optionNotes v e)) : Settles (placed σ (optionMentions (e.map (fillExpr v)))) := by
  cases e with
  | none => exact settles_nil
  | some value => exact settles_expr spelled names around value (parsed value rfl) quiet

end

/-! ### Statements -/

theorem Encloses.behind (spelled : Spelled source) {s : Stmt} (parsed : s.Parsed source)
    (around : Encloses σ inside) : Encloses (behind s σ) inside := by
  have named {name : Token} (isName : name.Names source) : Encloses (Scope.declaring name.lexeme true σ) inside :=
    around.declaring (spelled.names name isName.2 isName.1)
  cases s with
  | var => exact named parsed.1
  | function decl =>
    cases decl
    exact named parsed.1
  | classDef decl =>
    cases decl
    exact named parsed.1
  | traitDef decl =>
    cases decl
    exact named parsed.1
  | _ => exact around

/-- A name that a declaration refers to is settled, if its depth is that among the scopes around the declaration. -/
theorem Encloses.settled_ref {σ : Levels} (around : Encloses (counted σ) inside) (ref : NameRef) :
    (refMention false (located (namesOf (counted σ)) ref)).Settled σ where
  included := nofun
  found _ := rfl
  lookup _ := ⟨rfl, fun _ found => around.sets found fun declared => Bool.false_ne_true (around.all 0 _ _ declared)⟩

theorem settled_included (σ : Levels) {ref : NameRef} (unresolved : ref.depth = none) :
    (refMention true ref).Settled σ := ⟨fun _ => unresolved, nofun, nofun⟩

theorem settles_included (σ : Levels) {traits : List NameRef} (unresolved : ∀ ref ∈ traits, ref.depth = none) :
    Settles (placed σ (traits.map (refMention true))) :=
  settles_placed fun mention member => by
    obtain ⟨ref, isRef, rfl⟩ := List.mem_map.mp member
    exact settled_included σ (unresolved ref isRef)

/-- The superclass is looked up behind the name of the class. It is not the class itself, so its depth is that among the
scopes around the class. -/
theorem Encloses.settles_superclass {σ : Levels} (around : Encloses (counted σ) inside) {name : String}
    {superclass : Option NameRef} (different : ∀ base, superclass = some base → base.name.lexeme ≠ name) :
    Settles (placed σ ((superclass.map
      (located (namesOf (Scope.declaring name true (counted σ))))).map (refMention false)).toList) := by
  cases superclass with
  | none => exact settles_nil
  | some base =>
    refine settles_placed fun mention member => ?_
    obtain rfl := List.mem_singleton.mp member
    have outside : depthOf? (namesOf (Scope.declaring name true (counted σ))) base.name.lexeme = _ :=
      depthOf?_declaring (different base rfl)
    have settled := around.settled_ref base
    rwa [located, ← outside] at settled

section
variable {σ : Levels} (isOpen : Open σ) (names : namesOf (counted σ) = v.scopes)
include isOpen names

theorem names_put (name : Token) (isSet : Bool) :
    namesOf (counted (declaringIn name.lexeme isSet σ)) = (v.put name isSet).scopes := by
  rw [counted_declaringIn isOpen, namesOf_declaring, names]
  rfl

theorem names_set (name : Token) : namesOf (counted (declaringIn name.lexeme true σ)) = (v.set [name]).scopes :=
  names_put isOpen names name true

theorem names_behind (s : Stmt) : namesOf (counted (behindIn s σ)) = (v.set (declaredNames s)).scopes := by
  have plain : namesOf (counted σ) = (v.set []).scopes := by rw [View.set_nil, names]
  cases s with
  | var name | function decl | classDef decl | traitDef decl => exact names_set isOpen names _
  | _ => exact plain

end

theorem names_members {σ : Levels} (names : namesOf (counted σ) = v.scopes) (base : Option NameRef) :
    namesOf (counted (methodLevels (.scope thisRegion) base σ)) = (v.members base).scopes := by
  rw [counted_methodLevels, names_classRegions, names]
  cases base <;> rfl

theorem settles_pair {first second : List (Levels × Mention)} (quiet : Quiet (left ++ right))
    (one : Quiet left → Settles first) (two : Quiet right → Settles second) : Settles (first ++ second) :=
  settles_append (one (quiet_append.mp quiet).1) (two (quiet_append.mp quiet).2)

section
variable (spelled : Spelled source)
include spelled

set_option linter.unusedSectionVars false in
mutual

/-- Where nothing is reported, the names of a statement are settled, by induction on the statement. -/
theorem settles_stmt : ∀ (s : Stmt) {v : View} {σ : Levels}, s.Parsed source → Open σ →
    namesOf (counted σ) = v.scopes → Encloses (counted σ) v.classBody → Quiet (stmtNotes v s) →
      Settles (stmtMentions σ (fillStmt v s))
  | .expression value, v, σ, parsed, _, names, around, quiet | .print value, v, σ, parsed, _, names, around, quiet =>
    settles_expr spelled names around.toSurrounds value parsed quiet
  | .var name init, v, σ, parsed, isOpen, names, around, quiet => by
    have surrounds := around.surrounds_declaring (spelled.names name parsed.1.2 parsed.1.1) false
    rw [← counted_declaringIn isOpen] at surrounds
    exact settles_option spelled (names_put isOpen names name false) surrounds init parsed.2 (quiet_append.mp quiet).2
  | .block body, v, σ, parsed, _, names, around, quiet =>
    settles_stmts body parsed (open_scope _ σ) (congrArg (List.cons _) names)
      (around.push (@set_setNames [] _ (by simp))) quiet
  | .ifElse test yes none, v, σ, parsed, isOpen, names, around, quiet
  | .whileLoop test yes, v, σ, parsed, isOpen, names, around, quiet =>
    settles_pair quiet (settles_expr spelled names around.toSurrounds test parsed.1)
      (settles_stmt yes parsed.2.2 isOpen names around)
  | .ifElse test yes (some no), v, σ, parsed, isOpen, names, around, quiet => by
    rw [stmtNotes, ← List.append_assoc] at quiet
    exact settles_pair quiet (fun both => settles_pair both (settles_expr spelled names around.toSurrounds test parsed.1)
      (settles_stmt yes parsed.2.1.2 isOpen names around)) (settles_stmt no parsed.2.2.2 isOpen names around)
  | .breakLoop, _, _, _, _, _, _, _ | .missing, _, _, _, _, _, _, _ => settles_nil
  | .returnValue _ value, v, σ, parsed, _, names, around, quiet =>
    settles_option spelled names around.toSurrounds value parsed (quiet_append.mp quiet).2
  | .function ⟨name, params, body⟩, v, σ, parsed, isOpen, names, around, quiet => by
    have enclosed := around.declaring (spelled.names name parsed.1.2 parsed.1.1)
    rw [← counted_declaringIn isOpen] at enclosed
    exact settles_function ⟨name, params, body⟩ parsed (names_set isOpen names name) enclosed (quiet_append.mp quiet).2
  | .classDef ⟨name, superclass, methods, classMethods, traits⟩, v, σ, parsed, isOpen, names, around, quiet => by
    obtain ⟨based, members⟩ := quiet_append.mp (quiet_append.mp quiet).2
    obtain ⟨ofInstances, ofClass⟩ := quiet_append.mp members
    have named := names_set isOpen names name
    have enclosed := around.declaring (spelled.names name parsed.1.2 parsed.1.1)
    rw [← counted_declaringIn isOpen] at enclosed
    have ofMethods := enclosed.methods superclass
    have ofOwn : Encloses (thisRegion :: classRegions superclass (counted (declaringIn name.lexeme true σ)))
        (bodyOf superclass) := ofMethods.push (set_setNames [] (by simp))
    rw [← counted_methodLevels] at ofMethods
    rw [← counted_ownLevels] at ofOwn
    have different : ∀ base, superclass = some base → base.name.lexeme ≠ name.lexeme := by
      rintro base rfl
      exact Ne.symm (quiet_reportIf.mp (quiet_append.mp based).1)
    have extended := around.settles_superclass different
    rw [← counted_declaringIn isOpen, named] at extended
    have inside (superclass : Option NameRef) : ((v.set [name]).members superclass).classBody = bodyOf superclass := by
      cases superclass <;> rfl
    refine settles_append (settles_append (settles_append extended (settles_included _ parsed.2.1)) ?_) ?_
    · have settled := settles_functions methods parsed.2.2.1 (names_members named superclass)
        ((inside superclass).symm ▸ ofMethods) ofInstances
      cases superclass <;> exact settled
    · have ownNames : namesOf (counted (methodLevels .own superclass (declaringIn name.lexeme true σ))) =
          (((v.set [name]).members superclass).push ["this"]).scopes := by
        rw [counted_ownLevels, ← counted_methodLevels]
        exact congrArg (List.cons _) (names_members named superclass)
      have settled := settles_functions classMethods parsed.2.2.2 ownNames ((inside superclass).symm ▸ ofOwn) ofClass
      cases superclass <;> exact settled
  | .traitDef ⟨name, traits, methods⟩, v, σ, parsed, isOpen, names, around, quiet => by
    have named := names_set isOpen names name
    have enclosed := around.declaring (spelled.names name parsed.1.2 parsed.1.1)
    rw [← counted_declaringIn isOpen] at enclosed
    refine settles_append (settles_placed fun mention member => ?_) ?_
    · rw [← named, List.map_map] at member
      obtain ⟨ref, -, rfl⟩ := List.mem_map.mp member
      exact enclosed.settled_ref ref
    · exact settles_functions methods parsed.2 (congrArg (List.cons _) named) enclosed.traitMethods
        (quiet_append.mp (quiet_append.mp quiet).2).2
termination_by structural s => s

theorem settles_stmts : ∀ (body : List Stmt) {v : View} {σ : Levels},
    Stmt.AllParsed source body → Open σ → namesOf (counted σ) = v.scopes → Encloses (counted σ) v.classBody →
      Quiet (stmtsNotes v body) → Settles (stmtsMentions σ (fillStmts v body))
  | [], _, _, _, _, _, _, _ => settles_nil
  | s :: rest, v, σ, parsed, isOpen, names, around, quiet => by
    have same : behindIn (fillStmt v s) σ = behindIn s σ := by simp only [behindIn, declared?_fillStmt]
    have behind := around.behind spelled parsed.1
    rw [← counted_behindIn isOpen] at behind
    refine settles_pair quiet (settles_stmt s parsed.1 isOpen names around) ?_
    rw [same]
    exact settles_stmts rest parsed.2 (isOpen.behindIn s) (names_behind isOpen names s) behind
termination_by structural body => body

theorem settles_function : ∀ (f : FunDecl) {v : View} {context : FunctionContext}
    {σ : Levels}, f.Parsed source → namesOf (counted σ) = v.scopes → Encloses (counted σ) v.classBody →
      Quiet (functionNotes v context f) → Settles (functionMentions σ (fillFunction v context f))
  | ⟨name, params, body⟩, v, context, σ, parsed, names, around, quiet => by
    refine settles_stmts body parsed.2.2 (open_scope _ σ) ?_ (around.push (set_setNames _ fun other member => ?_))
      (quiet_append.mp quiet).2
    · simp [functionRegion, setNames, View.set, View.push, View.inFunction, counted, namesOf, ← names, Bindings.putAll,
        Function.comp_def]
    · obtain ⟨param, isParam, rfl⟩ := List.mem_map.mp member
      obtain ⟨isName, fromSource⟩ := parsed.2.1 param isParam
      exact (spelled.names param fromSource isName).2
termination_by structural f => f

theorem settles_functions : ∀ (fs : List FunDecl) {v : View}
    {kind : Token → FunctionContext} {σ : Levels}, FunDecl.AllParsed source fs → namesOf (counted σ) = v.scopes →
      Encloses (counted σ) v.classBody → Quiet (functionsNotes v kind fs) →
      Settles (functionsMentions σ (fillFunctions v kind fs))
  | [], _, _, _, _, _, _, _ => settles_nil
  | f :: rest, _, _, _, parsed, names, around, quiet =>
    settles_pair quiet (settles_function f parsed.1 names around) (settles_functions rest parsed.2 names around)
termination_by structural fs => fs

end

end

/-! ### Programs -/

theorem fill_of_resolved {body body' : List Stmt} {st st' : State} (parsed : Stmt.AllParsed source body)
    (resolved : resolveStmts body st = .ok body' st') :
    body' = fillStmts st.view body ∧
      st' = st.noting (st.view.set (body.flatMap declaredNames)) (stmtsNotes st.view body) := by
  cases (runs_stmts body parsed st.view st rfl).symm.trans resolved
  exact ⟨rfl, rfl⟩

theorem errors_noting {st : State} {notes : List Note} :
    (st.noting v notes).errors = #[] ↔ st.errors = #[] ∧ Quiet notes := by
  simp [State.noting, Quiet]

/-- A program has been resolved outside of all scopes: its shape is kept, and the classes that its classes extend are
looked up globally. If nothing has been reported, its returns are allowed and the names that it mentions are settled. -/
structure ProgramResolved (source : Token → Prop) (body body' : List Stmt) (found : State) : Prop where
  parsed : Stmt.AllParsed source body'
  simple : Stmt.AllNoClassMethods body → Stmt.AllNoClassMethods body'
  global : ∀ decl base, .classDef decl ∈ body' → decl.superclass = some base → base.depth = none
  returns : found.errors = #[] → Stmt.AllReturnsFit .none body'
  settles : Spelled source → found.errors = #[] → Settles (stmtsMentions [] body')

/-- Outside of all scopes no depth is filled in for a class that a class extends. -/
theorem global_fillStmts {body : List Stmt} {v : View} (outside : v.scopes = []) {decl : ClassDecl} {base : NameRef}
    (member : .classDef decl ∈ fillStmts v body) (extended : decl.superclass = some base) : base.depth = none := by
  induction body generalizing v with
  | nil => cases member
  | cons s _ ih =>
    rcases List.mem_cons.mp member with isHead | member
    · cases s with
      | ifElse _ _ no => cases no <;> cases isHead
      | classDef written =>
        cases written
        cases isHead
        obtain ⟨_, -, rfl⟩ := Option.map_eq_some_iff.mp extended
        simp [located, View.set, outside, depthOf?]
      | traitDef written => cases written; cases isHead
      | _ => cases isHead
    · exact ih (by simp [View.set, outside]) member

theorem resolved_program {body body' : List Stmt} {found : State} (parsed : Stmt.AllParsed source body)
    (resolved : resolveStmts body (.start []) = .ok body' found) : ProgramResolved source body body' found := by
  obtain ⟨rfl, rfl⟩ := fill_of_resolved parsed resolved
  refine ⟨(parsed_fillStmts body _).mpr parsed, (noClassMethods_fillStmts body _).mpr,
    fun _ _ member extended => global_fillStmts rfl member extended, fun clean => ?_, fun spelled clean => ?_⟩
  · exact returnsFit_fillStmts body (errors_noting.mp clean).2
  · exact settles_stmts spelled body parsed open_nil rfl encloses_nil (errors_noting.mp clean).2

end Scope
end LoxLang
