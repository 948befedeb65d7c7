import LoxLang.Proofs.LexicalScopes
import LoxLang.Proofs.StaticRules

/-!
Resolving in closed form. What becomes of a tree, and what is noted on the way, depend only on what is known around it,
so both are functions of that. Every tree that was read is resolved as these functions say.
-/

namespace LoxLang.Scope

/-! ### What is known around a place -/

/-- What resolving depends on at a place. -/
structure View where
  scopes : List Declared
  function : FunctionContext
  classBody : ClassContext

variable {α : Type} {x : Resolve α} {v : View}

def State.view (st : State) : View := ⟨st.scopes.items, st.function, st.classBody⟩

/-- A name that a declaration refers to, with the depth it has among some scopes. -/
def located (scopes : List Declared) (ref : NameRef) : NameRef := ⟨ref.name, depthOf? scopes ref.name.lexeme⟩

/-- The kind of class body that a class has. -/
def bodyOf (base : Option NameRef) : ClassContext := if base.isSome then .subclass else .plainClass

namespace View

def innermost? (v : View) (name : String) : Option Bool := v.scopes.head?.bind (·.get? name)

/-- The innermost scope declares a name. -/
def put (v : View) (name : Token) (isSet : Bool) : View :=
  { v with scopes := v.scopes.modifyHead (·.put name.lexeme isSet) }

def set (v : View) (names : List Token) : View :=
  { v with scopes := v.scopes.modifyHead (·.putAll (names.map fun name => (name.lexeme, true))) }

def push (v : View) (names : List String) : View := { v with scopes := setNames names :: v.scopes }

def inFunction (v : View) (context : FunctionContext) : View := { v with function := context }

def inClass (v : View) (context : ClassContext) : View := { v with classBody := context }

/-- Around the methods of a class. A class that extends another has a scope for that. -/
def members (v : View) (base : Option NameRef) : View :=
  (if base.isSome then (v.inClass (bodyOf base)).push ["super"] else v.inClass (bodyOf base)).push
    ["this"]

theorem set_nil (v : View) : v.set [] = v := by
  obtain ⟨scopes, _, _⟩ := v
  cases scopes <;> rfl

theorem set_append (v : View) (left right : List Token) : (v.set left).set right = v.set (left ++ right) := by
  obtain ⟨scopes, _, _⟩ := v
  cases scopes <;> simp [set, Bindings.putAll]

theorem put_put (v : View) (name : Token) : (v.put name false).put name true = v.set [name] := by
  obtain ⟨scopes, _, _⟩ := v
  cases scopes with
  | nil => rfl
  | cons => simp [put, set, Bindings.putAll, Bindings.put_put]

end View

/-! ### What is noted on the way -/

inductive Note where
  | report (error : ScopeError) (token : Token)
  | found (resolution : Resolution)

variable {notes : List Note}

def Note.report? : Note → Option (ScopeError × Token)
  | .report error token => some (error, token)
  | .found _ => none

def Note.resolution? : Note → Option Resolution
  | .report .. => none
  | .found resolution => some resolution

def reportsOf (notes : List Note) : List (ScopeError × Token) := notes.filterMap Note.report?

def foundIn (notes : List Note) : List Resolution := notes.filterMap Note.resolution?

@[simp]
theorem reportsOf_append (left right : List Note) : reportsOf (left ++ right) = reportsOf left ++ reportsOf right :=
  List.filterMap_append

@[simp]
theorem foundIn_append (left right : List Note) : foundIn (left ++ right) = foundIn left ++ foundIn right :=
  List.filterMap_append

/-- A report that is made if something is wrong. -/
def reportIf (wrong : Prop) [Decidable wrong] (error : ScopeError) (token : Token) : List Note :=
  if wrong then [.report error token] else []

namespace View

/-- What is noted where a name is looked for. -/
def seeks (v : View) (occurrence : Occurrence) (name : Token) : List Note :=
  ((depthOf? v.scopes name.lexeme).map fun d => .found ⟨occurrence, name, d⟩).toList

def reads (v : View) (name : Token) : List Note :=
  reportIf (v.innermost? name.lexeme = some false) .readInOwnInitializer name ++ v.seeks .variable_ name

def thisDepth? (v : View) (keyword : Token) : Option Nat :=
  if v.classBody = .none then none else depthOf? v.scopes keyword.lexeme

def readsThis (v : View) (keyword : Token) : List Note :=
  if v.classBody = .none then [.report .thisOutsideClass keyword] else v.seeks .this keyword

def readsSuper (v : View) (keyword : Token) : List Note :=
  ((superError? v.classBody).map (.report · keyword)).toList ++ v.seeks .super keyword

/-- What is noted where names are declared in a scope, one after the other. -/
def declares (v : View) : List Token → List Note
  | [] => []
  | name :: rest =>
    reportIf ((v.innermost? name.lexeme).isSome = true) .alreadyDeclared name ++ (v.set [name]).declares rest

def returns (v : View) (keyword : Token) (hasValue : Bool) : List Note :=
  reportIf (v.function = .none) .returnOutsideFunction keyword ++
    reportIf (hasValue = true ∧ v.function = .initializer) .valueFromInitializer keyword

/-- What is noted about the class that a class extends. -/
def extends_ (v : View) (name : Token) : Option NameRef → List Note
  | none => []
  | some base => reportIf (name.lexeme = base.name.lexeme) .inheritsFromItself base.name ++ v.reads base.name

end View

/-! ### Trees -/

section
variable (v : View)

mutual

/-- An expression with its depths filled in. -/
def fillExpr : Expr → Expr
  | .binary left op right => .binary (fillExpr left) op (fillExpr right)
  | .logical left op right => .logical (fillExpr left) op (fillExpr right)
  | .unary op operand => .unary op (fillExpr operand)
  | .conditional test yes no =>
    .conditional (fillExpr test) (fillExpr yes) (fillExpr no)
  | .grouping inner => .grouping (fillExpr inner)
  | .literal value => .literal value
  | .var name _ => .var name (depthOf? v.scopes name.lexeme)
  | .assign name value _ => .assign name (fillExpr value) (depthOf? v.scopes name.lexeme)
  | .call callee paren args => .call (fillExpr callee) paren (fillExprs args)
  | .get object name => .get (fillExpr object) name
  | .set object name value => .set (fillExpr object) name (fillExpr value)
  | .this keyword _ => .this keyword (v.thisDepth? keyword)
  | .super keyword method _ => .super keyword method (depthOf? v.scopes keyword.lexeme)
  | .missing => .missing

def fillExprs : List Expr → List Expr
  | [] => []
  | e :: rest => fillExpr e :: fillExprs rest

end

mutual

/-- What is noted in an expression. The value of a property assignment comes before the object. -/
def exprNotes : Expr → List Note
  | .binary left _ right | .logical left _ right => exprNotes left ++ exprNotes right
  | .unary _ operand => exprNotes operand
  | .conditional test yes no =>
    exprNotes test ++ (exprNotes yes ++ exprNotes no)
  | .grouping inner => exprNotes inner
  | .literal _ | .missing => []
  | .var name _ => v.reads name
  | .assign name value _ => exprNotes value ++ v.seeks .assign name
  | .call callee _ args => exprNotes callee ++ exprsNotes args
  | .get object _ => exprNotes object
  | .set object _ value => exprNotes value ++ exprNotes object
  | .this keyword _ => v.readsThis keyword
  | .super keyword _ _ => v.readsSuper keyword

def exprsNotes : List Expr → List Note
  | [] => []
  | e :: rest => exprNotes e ++ exprsNotes rest

end

def optionNotes (e : Option Expr) : List Note := (e.map (exprNotes v)).getD []

def refsNotes (refs : List NameRef) : List Note := refs.flatMap fun ref => v.reads ref.name

end

mutual

/-- A statement with its depths filled in. -/
def fillStmt (v : View) : Stmt → Stmt
  | .expression value => .expression (fillExpr v value)
  | .print value => .print (fillExpr v value)
  | .var name init => .var name (init.map (fillExpr (v.put name false)))
  | .block body => .block (fillStmts (v.push []) body)
  | .ifElse test yes none => .ifElse (fillExpr v test) (fillStmt v yes) none
  | .ifElse test yes (some no) =>
    .ifElse (fillExpr v test) (fillStmt v yes) (some (fillStmt v no))
  | .whileLoop test body => .whileLoop (fillExpr v test) (fillStmt v body)
  | .breakLoop => .breakLoop
  | .returnValue keyword value => .returnValue keyword (value.map (fillExpr v))
  | .function f => .function (fillFunction (v.set [f.name]) .function f)
  | .classDef ⟨name, base, methods, own, traits⟩ =>
    .classDef ⟨name, base.map (located (v.set [name]).scopes),
      fillFunctions ((v.set [name]).members base) methodContext methods,
      fillFunctions (((v.set [name]).members base).push ["this"]) (fun _ => .method) own, traits⟩
  | .traitDef ⟨name, traits, methods⟩ =>
    .traitDef ⟨name, traits.map (located (v.set [name]).scopes),
      fillFunctions (((v.set [name]).inClass .trait).push ["this"]) (fun _ => .method) methods⟩
  | .missing => .missing

def fillStmts (v : View) : List Stmt → List Stmt
  | [] => []
  | s :: rest => fillStmt v s :: fillStmts (v.set (declaredNames s)) rest

/-- A function of some kind. Its parameters and its body share a scope. -/
def fillFunction (v : View) (context : FunctionContext) : FunDecl → FunDecl
  | ⟨name, params, body⟩ => ⟨name, params, fillStmts (((v.inFunction context).push []).set (params.getD [])) body⟩

/-- Functions whose kinds follow from their names. -/
def fillFunctions (v : View) (kind : Token → FunctionContext) : List FunDecl → List FunDecl
  | [] => []
  | f :: rest => fillFunction v (kind f.name) f :: fillFunctions v kind rest

end

mutual

/-- What is noted in a statement. -/
def stmtNotes (v : View) : Stmt → List Note
  | .expression value | .print value => exprNotes v value
  | .var name init => v.declares [name] ++ optionNotes (v.put name false) init
  | .block body => stmtsNotes (v.push []) body
  | .ifElse test yes none => exprNotes v test ++ stmtNotes v yes
  | .ifElse test yes (some no) =>
    exprNotes v test ++ (stmtNotes v yes ++ stmtNotes v no)
  | .whileLoop test body => exprNotes v test ++ stmtNotes v body
  | .breakLoop | .missing => []
  | .returnValue keyword value => v.returns keyword value.isSome ++ optionNotes v value
  | .function f => v.declares [f.name] ++ functionNotes (v.set [f.name]) .function f
  | .classDef ⟨name, base, methods, own, _⟩ =>
    v.declares [name] ++ ((v.set [name]).extends_ name base ++
      (functionsNotes ((v.set [name]).members base) methodContext methods ++
        functionsNotes (((v.set [name]).members base).push ["this"]) (fun _ => .method) own))
  | .traitDef ⟨name, traits, methods⟩ =>
    v.declares [name] ++ (refsNotes (v.set [name]) traits ++
      functionsNotes (((v.set [name]).inClass .trait).push ["this"]) (fun _ => .method) methods)

def stmtsNotes (v : View) : List Stmt → List Note
  | [] => []
  | s :: rest => stmtNotes v s ++ stmtsNotes (v.set (declaredNames s)) rest

def functionNotes (v : View) (context : FunctionContext) : FunDecl → List Note
  | ⟨_, params, body⟩ =>
    ((v.inFunction context).push []).declares (params.getD []) ++
      stmtsNotes (((v.inFunction context).push []).set (params.getD [])) body

def functionsNotes (v : View) (kind : Token → FunctionContext) : List FunDecl → List Note
  | [] => []
  | f :: rest => functionNotes v (kind f.name) f ++ functionsNotes v kind rest

end

/-! ### Running -/

/-- The state at a place where something else is known, after some notes. -/
def State.noting (st : State) (v : View) (notes : List Note) : State where
  scopes := ⟨v.scopes⟩
  function := v.function
  classBody := v.classBody
  errors := st.errors ++ (reportsOf notes).toArray
  resolutions := st.resolutions ++ (foundIn notes).toArray

theorem State.noting_nil (st : State) : st.noting st.view [] = st := by
  simp [noting, view, reportsOf, foundIn]

theorem State.noting_noting (st : State) (v w : View) (notes more : List Note) :
    (st.noting v notes).noting w more = st.noting w (notes ++ more) := by
  simp [noting, Array.append_assoc]

theorem ok_bind {β : Type} {f : α → Resolve β} {st st₂ : State} {b : β} :
    (x >>= f) st = .ok b st₂ ↔ ∃ a st₁, x st = .ok a st₁ ∧ f a st₁ = .ok b st₂ := by
  simp only [bind, EStateM.bind]
  cases x st <;> simp [and_assoc]

theorem ok_pure {a b : α} {st st' : State} : (pure a : Resolve α) st = .ok b st' ↔ a = b ∧ st = st' := by
  simp [pure, EStateM.pure]

theorem setAll_eq (names : List String) (inner : Declared) (outer : List Declared) (st : State) :
    setAll names { st with scopes := ⟨inner :: outer⟩ } =
      .ok () { st with scopes := ⟨inner.putAll (names.map (·, true)) :: outer⟩ } := by
  induction names generalizing inner with
  | nil => rfl
  | cons name _ ih => exact ih (inner.put name true)

theorem inScope_eq (names : List String) (body : Resolve α) (st : State) : inScope names body st = (do
      let result ← body
      endScope
      return result) { st with scopes := ⟨setNames names :: st.scopes.items⟩ } := by
  change (setAll names >>= _) { st with scopes := ⟨Bindings.empty :: st.scopes.items⟩ } = _
  simp only [bind, EStateM.bind, setAll_eq]
  rfl

theorem endScope_eq {st : State} (inside : st.scopes.items ≠ []) :
    endScope st = .ok () { st with scopes := ⟨st.scopes.items.tail⟩ } := by
  obtain ⟨⟨items⟩, _, _, _, _⟩ := st
  cases items with
  | nil => exact absurd rfl inside
  | cons => rfl

section
variable {β : Type} {v₁ v₂ : View} {a : α} {b : β} {more : List Note}

/-- Wherever a view is had, a computation gives a value and leads to another view, with some notes. -/
def Runs (x : Resolve α) (v : View) (a : α) (v' : View) (notes : List Note) : Prop :=
  ∀ st : State, st.view = v → x st = .ok a (st.noting v' notes)

theorem runs_pure (a : α) : Runs (pure a) v a v [] := by
  rintro st rfl
  rw [State.noting_nil]
  rfl

theorem Runs.bind {f : α → Resolve β} (first : Runs x v a v₁ notes) (next : Runs (f a) v₁ b v₂ more) :
    Runs (x >>= f) v b v₂ (notes ++ more) := by
  intro st here
  rw [← State.noting_noting st v₁]
  exact ok_bind.mpr ⟨a, _, first st here, next _ rfl⟩

theorem Runs.of_eq (runs : Runs x v a v₁ notes) (same : notes = more) : Runs x v a v₁ more :=
  same ▸ runs

theorem Runs.map {f : α → β} (runs : Runs x v a v₁ notes) : Runs (do return f (← x)) v (f a) v₁ notes :=
  (runs.bind (runs_pure (f a))).of_eq (List.append_nil notes)

theorem Runs.andThen {f : α → Resolve β} (first : Runs x v a v₁ []) (next : Runs (f a) v₁ b v₂ more) :
    Runs (x >>= f) v b v₂ more := first.bind next

theorem Runs.get {f : State → Resolve β} (next : ∀ st : State, st.view = v → Runs (f st) v b v₁ notes) :
    Runs (get >>= f) v b v₁ notes := fun st here => next st here st here

theorem runs_modify {change : State → State} (leads : ∀ st : State, st.view = v → change st = st.noting v₁ []) :
    Runs (modify change) v () v₁ [] := fun st here => congrArg (EStateM.Result.ok ()) (leads st here)

theorem runs_report (error : ScopeError) (token : Token) : Runs (report error token) v () v [.report error token] := by
  rintro st rfl
  refine congrArg (EStateM.Result.ok ()) ?_
  simp [State.noting, State.view, reportsOf, foundIn, Note.report?, Note.resolution?]

theorem Runs.reporting {wrong : Prop} [Decidable wrong] {error : ScopeError} {token : Token} {f : Unit → Resolve β}
    (next : Runs (f ()) v b v₁ notes) :
    Runs (if wrong then report error token >>= f else f ()) v b v₁ (reportIf wrong error token ++ notes) := by
  by_cases holds : wrong
  · rw [if_pos holds, reportIf, if_pos holds]
    exact (runs_report error token).bind next
  · rw [if_neg holds, reportIf, if_neg holds]
    exact next

theorem runs_reportIf {wrong : Prop} [Decidable wrong] {error : ScopeError} {token : Token} :
    Runs (if wrong then report error token else pure ()) v () v (reportIf wrong error token) := by
  by_cases holds : wrong
  · rw [if_pos holds, reportIf, if_pos holds]
    exact runs_report error token
  · rw [if_neg holds, reportIf, if_neg holds]
    exact runs_pure ()

theorem runs_modifyInnermost (change : Declared → Declared) :
    Runs (modify (·.modifyInnermost change)) v () { v with scopes := v.scopes.modifyHead change } [] := by
  refine runs_modify ?_
  rintro ⟨⟨scopes⟩, _, _, _, _⟩ rfl
  cases scopes <;> simp [State.modifyInnermost, State.noting, State.view, reportsOf, foundIn]

theorem runs_setClass (context : ClassContext) : Runs (setClass context) v () (v.inClass context) [] := by
  refine runs_modify ?_
  rintro st rfl
  rw [← State.noting_nil st]
  rfl

theorem Runs.inScope {names : List String} {added : List Token}
    (body : Runs x (v.push names) a ((v.push names).set added) notes) : Runs (inScope names x) v a v notes := by
  rintro st rfl
  have ran := body { st with scopes := ⟨setNames names :: st.scopes.items⟩ } rfl
  rw [inScope_eq]
  exact ok_bind.mpr ⟨a, _, ran, ok_bind.mpr ⟨(), _, endScope_eq (List.cons_ne_nil _ _), rfl⟩⟩

theorem Runs.within {names : List String} (body : Runs x (v.push names) a (v.push names) notes) :
    Runs (Scope.inScope names x) v a v notes := by
  have same : Runs x (v.push names) a ((v.push names).set []) notes := by rwa [View.set_nil]
  exact same.inScope

theorem Runs.inFunction {context : FunctionContext}
    (body : Runs x (v.inFunction context) a (v.inFunction context) notes) :
    Runs (inFunction context x) v a v notes := by
  rintro st rfl
  have ran := body { st with function := context } rfl
  exact ok_bind.mpr ⟨_, _, rfl, ok_bind.mpr ⟨_, _, rfl, ok_bind.mpr ⟨a, _, ran, rfl⟩⟩⟩

/-! ### Names -/

theorem runs_declare (name : Token) : Runs (declare name) v () (v.put name false) (v.declares [name]) := by
  refine .get ?_
  rintro st rfl
  exact .reporting (runs_modifyInnermost _)

theorem runs_define (name : Token) : Runs (define name) (v.put name false) () (v.set [name]) [] := by
  rw [← View.put_put]
  exact runs_modifyInnermost _

theorem runs_declareAll (names : List Token) : Runs (declareAll names) v () (v.set names) (v.declares names) := by
  induction names generalizing v with
  | nil => exact (View.set_nil v).symm ▸ runs_pure ()
  | cons name rest ih =>
    have all : Runs (declareAll (name :: rest)) v () ((v.set [name]).set rest) _ :=
      (runs_declare name).bind ((runs_define name).andThen ih)
    rw [View.set_append] at all
    exact all.of_eq (by simp [View.declares])

theorem runs_locate (occurrence : Occurrence) (name : Token) :
    Runs (locate occurrence name) v (depthOf? v.scopes name.lexeme) v (v.seeks occurrence name) := by
  refine .get ?_
  rintro st rfl
  rw [View.seeks]
  have same : st.view.scopes = st.scopes.items := rfl
  cases found : depthOf? st.scopes.items name.lexeme with
  | none =>
    rw [same, found]
    exact runs_pure none
  | some depth =>
    rw [same, found]
    intro st' here
    refine congrArg (EStateM.Result.ok (some depth)) ?_
    rw [← here]
    simp [State.noting, State.view, reportsOf, foundIn, Note.report?, Note.resolution?]

theorem runs_useName (name : Token) : Runs (useName name) v (depthOf? v.scopes name.lexeme) v (v.reads name) := by
  refine .get ?_
  rintro st rfl
  have same : (st.innermost? name.lexeme == some false) = true ↔ st.view.innermost? name.lexeme = some false := by
    rw [beq_iff_eq]
    rfl
  simp only [same]
  exact .reporting (runs_locate _ _)

theorem runs_useThis (keyword : Token) : Runs (useThis keyword) v (v.thisDepth? keyword) v (v.readsThis keyword) := by
  refine .get ?_
  rintro st rfl
  by_cases outside : st.classBody = .none
  · have here : st.view.classBody = .none := outside
    rw [if_pos outside, View.thisDepth?, View.readsThis, if_pos here, if_pos here]
    exact (runs_report _ keyword).bind (runs_pure none)
  · have here : st.view.classBody ≠ .none := outside
    rw [if_neg outside, View.thisDepth?, View.readsThis, if_neg here, if_neg here]
    exact runs_locate _ keyword

theorem runs_useSuper (keyword : Token) :
    Runs (useSuper keyword) v (depthOf? v.scopes keyword.lexeme) v (v.readsSuper keyword) := by
  refine .get ?_
  rintro st rfl
  have same : st.view.classBody = st.classBody := rfl
  rw [View.readsSuper, same]
  cases superError? st.classBody with
  | none => exact runs_locate _ keyword
  | some error => exact (runs_report error keyword).bind (runs_locate _ keyword)

theorem runs_ref (ref : NameRef) : Runs (resolveRef ref) v (located v.scopes ref) v (v.reads ref.name) :=
  (runs_useName ref.name).map

theorem runs_refs (refs : List NameRef) : Runs (resolveRefs refs) v (refs.map (located v.scopes)) v (refsNotes v refs) := by
  induction refs with
  | nil => exact runs_pure []
  | cons ref _ ih => exact (runs_ref ref).bind ih.map

theorem runs_superclass (name : Token) (superclass : Option NameRef) (plain : v.classBody = .plainClass) :
    Runs (resolveSuperclass name superclass) v (superclass.map (located v.scopes)) (v.inClass (bodyOf superclass))
      (v.extends_ name superclass) := by
  cases superclass with
  | none =>
    have same : v.inClass (bodyOf none) = v := by rw [bodyOf, if_neg (by simp), ← plain]; rfl
    exact same.symm ▸ runs_pure none
  | some base =>
    rw [resolveSuperclass]
    exact .reporting ((runs_setClass .subclass).andThen (runs_ref base).map)

theorem runs_checkReturn (keyword : Token) (hasValue : Bool) :
    Runs (checkReturn keyword hasValue) v () v (v.returns keyword hasValue) := by
  refine .get ?_
  rintro st rfl
  refine .reporting (.get fun st' there => ?_)
  have same : (hasValue && decide (st'.function = .initializer)) = true ↔
      hasValue = true ∧ st.view.function = .initializer := by
    rw [← there]
    simp [State.view]
  simp only [same]
  exact runs_reportIf

end

/-! ### Running through a tree -/

section
variable {source : Token → Prop}

mutual

/-- An expression that was read is resolved, by induction on the expression. -/
theorem runs_expr : ∀ e : Expr, e.Parsed source → ∀ v, Runs (resolveExpr e) v (fillExpr v e) v (exprNotes v e)
  | .binary left _ right, parsed, v | .logical left _ right, parsed, v =>
    (runs_expr left parsed.1 v).bind (runs_expr right parsed.2 v).map
  | .unary _ inner, parsed, v | .grouping inner, parsed, v | .get inner _, parsed, v => (runs_expr inner parsed v).map
  | .conditional test yes no, parsed, v =>
    (runs_expr test parsed.1 v).bind ((runs_expr yes parsed.2.1 v).bind (runs_expr no parsed.2.2 v).map)
  | .literal _, _, _ => runs_pure _
  | .var name _, _, _ => (runs_useName name).map
  | .assign name value _, parsed, v => (runs_expr value parsed.2 v).bind (runs_locate .assign name).map
  | .call callee _ args, parsed, v => (runs_expr callee parsed.1 v).bind (runs_exprs args parsed.2 v).map
  | .set object _ value, parsed, v => (runs_expr value parsed.2 v).bind (runs_expr object parsed.1 v).map
  | .this keyword _, _, _ => (runs_useThis keyword).map
  | .super keyword _ _, _, _ => (runs_useSuper keyword).map
  | .missing, parsed, _ => parsed.elim

theorem runs_exprs : ∀ es : List Expr, Expr.AllParsed source es →
    ∀ v, Runs (resolveExprs es) v (fillExprs v es) v (exprsNotes v es)
  | [], _, _ => runs_pure []
  | e :: rest, parsed, v => (runs_expr e parsed.1 v).bind (runs_exprs rest parsed.2 v).map

end

theorem runs_option (e : Option Expr) (parsed : Expr.OptionParsed source e) (v : View) :
    Runs (resolveExpr? e) v (e.map (fillExpr v)) v (optionNotes v e) := by
  cases e with
  | none => exact runs_pure none
  | some value => exact (runs_expr value (parsed value rfl) v).map

theorem declaredNames_of_isPlain {s : Stmt} (plain : s.isPlain = true) : declaredNames s = [] := by
  cases s <;> first | rfl | cases plain

theorem Runs.plain {a : α} {s : Stmt} (runs : Runs x v a (v.set (declaredNames s)) notes) (plain : s.isPlain = true) :
    Runs x v a v notes := by
  rwa [declaredNames_of_isPlain plain, View.set_nil] at runs

theorem Runs.stmt {a : α} (runs : Runs x v a v notes) : Runs x v a (v.set []) notes := by rwa [View.set_nil]

/-- A class is declared before its methods are resolved, and it is the class body around them. -/
theorem runs_class {name : Token} {superclass : Option NameRef} {methods own : List FunDecl}
    {traits : List NameRef} {methods' own' : List FunDecl} {more : List Note}
    (first : Runs (resolveMethods methods) ((v.set [name]).members superclass) methods'
      ((v.set [name]).members superclass) notes)
    (second : Runs (resolveClassMethods own) ((v.set [name]).members superclass) own'
      ((v.set [name]).members superclass) more) :
    Runs (resolveClass ⟨name, superclass, methods, own, traits⟩) v
      ⟨name, superclass.map (located (v.set [name]).scopes), methods', own', traits⟩ (v.set [name])
      (v.declares [name] ++ ((v.set [name]).extends_ name superclass ++ (notes ++ more))) := by
  have declared : Runs (declareAll [name]) (v.inClass .plainClass) () ((v.set [name]).inClass .plainClass)
      (v.declares [name]) := runs_declareAll [name]
  have base : Runs (resolveSuperclass name superclass) ((v.set [name]).inClass .plainClass) _
      ((v.set [name]).inClass (bodyOf superclass)) ((v.set [name]).extends_ name superclass) :=
    runs_superclass name superclass rfl
  have bodies : Runs (do
      let methods ← resolveMethods methods
      let own ← resolveClassMethods own
      return (methods, own)) ((v.set [name]).members superclass) (methods', own') _ _ :=
    first.bind second.map
  have inside : Runs (inScopeIf (superclass.map (located (v.set [name]).scopes)).isSome ["super"] (inScope ["this"] do
      let methods ← resolveMethods methods
      let own ← resolveClassMethods own
      return (methods, own))) ((v.set [name]).inClass (bodyOf superclass)) (methods', own')
      ((v.set [name]).inClass (bodyOf superclass)) (notes ++ more) := by
    cases superclass with
    | none => exact bodies.within
    | some => exact bodies.within.within
  refine .get fun st here => ?_
  have restored : Runs (setClass st.classBody) ((v.set [name]).inClass (bodyOf superclass)) () (v.set [name]) [] := by
    rw [← here]
    exact runs_setClass st.classBody
  refine (runs_setClass .plainClass).andThen (declared.bind (base.bind ((inside.bind restored.map).of_eq ?_)))
  exact List.append_nil _

theorem runs_trait {name : Token} {methods methods' : List FunDecl} {traits : List NameRef}
    (first : Runs (resolveTraitMethods methods) (((v.set [name]).inClass .trait).push ["this"])
      methods' (((v.set [name]).inClass .trait).push ["this"]) notes) :
    Runs (resolveTrait ⟨name, traits, methods⟩) v ⟨name, traits.map (located (v.set [name]).scopes), methods'⟩
      (v.set [name]) (v.declares [name] ++ (refsNotes (v.set [name]) traits ++ notes)) := by
  have included : Runs (resolveRefs traits) ((v.set [name]).inClass .trait) _ _ (refsNotes (v.set [name]) traits) :=
    runs_refs traits
  refine (runs_declareAll [name]).bind (.get fun st here => (runs_setClass .trait).andThen (included.bind ?_))
  have restored : Runs (setClass st.classBody) ((v.set [name]).inClass .trait) () (v.set [name]) [] := by
    rw [← here]
    exact runs_setClass st.classBody
  exact (first.within.bind restored.map).of_eq (List.append_nil _)

mutual

/-- A statement that was read is resolved, by induction on the statement. -/
theorem runs_stmt : ∀ s : Stmt, s.Parsed source →
    ∀ v, Runs (resolveStmt s) v (fillStmt v s) (v.set (declaredNames s)) (stmtNotes v s)
  | .expression value, parsed, v | .print value, parsed, v => (runs_expr value parsed v).map.stmt
  | .var name init, parsed, v => by
    have value := runs_option init parsed.2 (v.put name false)
    refine (runs_declare name).bind ((value.bind (runs_define name).map).of_eq ?_)
    exact List.append_nil _
  | .block body, parsed, v => (Runs.inScope (runs_stmts body parsed (v.push []))).map.stmt
  | .ifElse test yes none, parsed, v =>
    ((runs_expr test parsed.1 v).bind ((runs_stmt yes parsed.2.2 v).plain parsed.2.1).map).stmt
  | .ifElse test yes (some no), parsed, v =>
    ((runs_expr test parsed.1 v).bind (((runs_stmt yes parsed.2.1.2 v).plain parsed.2.1.1).bind
      ((runs_stmt no parsed.2.2.2 v).plain parsed.2.2.1).map)).stmt
  | .whileLoop test body, parsed, v =>
    ((runs_expr test parsed.1 v).bind ((runs_stmt body parsed.2.2 v).plain parsed.2.1).map).stmt
  | .breakLoop, _, v => (runs_pure _).stmt
  | .returnValue keyword value, parsed, v =>
    ((runs_checkReturn keyword value.isSome).bind (runs_option value parsed v).map).stmt
  | .function f, parsed, v => (runs_declareAll [f.name]).bind (runs_function .function f parsed _).map
  | .classDef ⟨_, _, methods, own, _⟩, parsed, v =>
    (runs_class (runs_methods methods parsed.2.2.1 _) (runs_classMethods own parsed.2.2.2 _)).map
  | .traitDef ⟨_, _, methods⟩, parsed, v => (runs_trait (runs_traitMethods methods parsed.2 _)).map
  | .missing, parsed, _ => parsed.elim

theorem runs_stmts : ∀ body : List Stmt, Stmt.AllParsed source body →
    ∀ v, Runs (resolveStmts body) v (fillStmts v body) (v.set (body.flatMap declaredNames)) (stmtsNotes v body)
  | [], _, _ => (runs_pure []).stmt
  | s :: rest, parsed, v => by
    rw [List.flatMap_cons, ← View.set_append]
    exact (runs_stmt s parsed.1 v).bind (runs_stmts rest parsed.2 _).map

theorem runs_function : ∀ (context : FunctionContext) (f : FunDecl), f.Parsed source →
    ∀ v, Runs (resolveFunction context f) v (fillFunction v context f) v (functionNotes v context f)
  | context, ⟨_, params, body⟩, parsed, v => by
    have inside : Runs (do declareAll (params.getD []); resolveStmts body) _ _ _ _ :=
      (runs_declareAll (params.getD [])).bind (runs_stmts body parsed.2.2
        (((v.inFunction context).push []).set (params.getD [])))
    rw [View.set_append] at inside
    exact (Runs.inScope inside).inFunction.map

theorem runs_methods : ∀ fs : List FunDecl, FunDecl.AllParsed source fs →
    ∀ v, Runs (resolveMethods fs) v (fillFunctions v methodContext fs) v (functionsNotes v methodContext fs)
  | [], _, _ => runs_pure []
  | f :: rest, parsed, v => (runs_function _ f parsed.1 v).bind (runs_methods rest parsed.2 v).map

theorem runs_traitMethods : ∀ fs : List FunDecl, FunDecl.AllParsed source fs →
    ∀ v, Runs (resolveTraitMethods fs) v (fillFunctions v (fun _ => .method) fs) v
      (functionsNotes v (fun _ => .method) fs)
  | [], _, _ => runs_pure []
  | f :: rest, parsed, v => (runs_function _ f parsed.1 v).bind (runs_traitMethods rest parsed.2 v).map

/-- The own methods of a class have one more scope with `this`. -/
theorem runs_classMethods : ∀ fs : List FunDecl, FunDecl.AllParsed source fs →
    ∀ v, Runs (resolveClassMethods fs) v (fillFunctions (v.push ["this"]) (fun _ => .method) fs) v
      (functionsNotes (v.push ["this"]) (fun _ => .method) fs)
  | [], _, _ => runs_pure []
  | f :: rest, parsed, v =>
    (runs_function _ f parsed.1 (v.push ["this"])).within.bind (runs_classMethods rest parsed.2 v).map

end

end

end LoxLang.Scope
