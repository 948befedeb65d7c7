import LoxLang.Proofs.AcceptedRuns
import LoxLang.Proofs.LastingRuns
import LoxLang.Proofs.LexicalCalls
import LoxLang.Proofs.MethodLookup

/-!
What `super` stands for. A class that extends another puts a frame with `super` in sight of its methods when it is
declared, and binding a method puts a frame with `this` right inside it. No name of a program is spelled like these
words, so both frames keep what they hold. Wherever `super` is used in the method, the depth that is kept with it counts
the frames up to the one with `super`, and the one with `this` is just before it.
-/

namespace LoxLang

open Eval

variable {m m' : Machine} {name : Token} {s : Stmt} {e : Expr} {decl : ClassDecl} {object : FrameId} {base : Class}
  {self : Value}

open Scope (Region Level Levels depthOf? namesOf counted declaringIn behindIn declared? methodLevels thisRegion
  functionRegion exprMentions exprsMentions stmtMentions stmtsMentions placed placed_append)

/-! ### Frames keep `this` and `super` -/

/-- A name that can be bound by a program. -/
def IsPlainName (name : String) : Prop := name ≠ thisName ∧ name ≠ superName

/-- All frames are still there, with the same `this` and the same `super` as before. -/
structure Machine.KeepsWords (m m' : Machine) : Prop where
  size : m.frames.size ≤ m'.frames.size
  same : ∀ id, id < m.frames.size → ∀ name, ¬ IsPlainName name → (m'.frame id).get? name = (m.frame id).get? name

namespace Machine

theorem keepsWords_of_frames (frames : m'.frames = m.frames) : m.KeepsWords m' := by
  refine ⟨by rw [frames], fun id _ name _ => ?_⟩
  rw [frame, frame, frames]

theorem keepsWords_push (m : Machine) (bindings : Bindings Value) :
    m.KeepsWords { m with frames := m.frames.push bindings } := by
  refine ⟨by simp, fun id inside name _ => ?_⟩
  rw [frame_push_of_lt inside]

theorem keepsWords_bind (m : Machine) (id : FrameId) {name : String} (plain : IsPlainName name) (value : Value) :
    m.KeepsWords (m.bind id name value) := by
  refine ⟨by rw [size_bind], fun other inside word isWord => ?_⟩
  by_cases here : other = id
  · have apart : word ≠ name := by
      rintro rfl
      exact isWord plain
    subst here
    rw [frame_bind_self inside, Bindings.get?_put_of_ne _ _ apart]
  · rw [frame_bind_of_ne here]

theorem KeepsWords.trans {m'' : Machine} (first : m.KeepsWords m') (second : m'.KeepsWords m'') : m.KeepsWords m'' := by
  refine ⟨Nat.le_trans first.size second.size, fun id inside name isWord => ?_⟩
  rw [second.same id (Nat.lt_of_lt_of_le inside first.size) name isWord, first.same id inside name isWord]

end Machine

theorem Eval.lasting_keepsWords : Lasting Machine.KeepsWords IsPlainName where
  refl _ := Machine.keepsWords_of_frames rfl
  trans := Machine.KeepsWords.trans
  push := Machine.keepsWords_push
  bind m id _ plain value := m.keepsWords_bind id plain value
  aside frames _ := Machine.keepsWords_of_frames frames

namespace Run

variable {r : Run} {v w : Visit} {name : String}

theorem isPlainName_of_names {token : Token} (names : token.Names r.source) : IsPlainName token.lexeme :=
  r.spelled.names token names.2 names.1

theorem isPlainName_of_declared (parsed : s.Parsed r.source) (declares : declared? s = some name) :
    IsPlainName name := by
  cases s with
  | var =>
    cases declares
    exact isPlainName_of_names parsed.1
  | function decl =>
    cases decl
    cases declares
    exact isPlainName_of_names parsed.1
  | classDef decl =>
    cases decl
    cases declares
    exact isPlainName_of_names parsed.1
  | traitDef decl =>
    cases decl
    cases declares
    exact isPlainName_of_names parsed.1
  | _ => cases declares

theorem isPlainName_of_bound (reached : r.Reaches v) (bound : v.point.bound? = some name) : IsPlainName name := by
  have fits := (good_of_reaches reached).2
  obtain ⟨n, point, m⟩ := v
  cases point with
  | eval e =>
    obtain ⟨σ, code, -⟩ := fits
    cases e with
    | assign =>
      cases bound
      exact isPlainName_of_names code.parsed.1
    | _ => cases bound
  | exec =>
    obtain ⟨σ, code, -⟩ := fits
    exact isPlainName_of_declared code.parsed bound

def last (r : Run) : Machine := (runAll (execute r.fuel) r.program).after r.start

theorem keepsWords_last (reached : r.Reaches v) : v.machine.KeepsWords r.last :=
  Reached.lasts lasting_keepsWords (fun _ _ => Machine.keepsWords_of_frames rfl)
    (fun _ reached _ bound => isPlainName_of_bound reached bound) reached

theorem keepsWords_behind (reached : r.Reaches v) : ((v.point.run v.fuel).after v.machine).KeepsWords r.last :=
  Reached.lasts_behind lasting_keepsWords (fun _ _ => Machine.keepsWords_of_frames rfl)
    (fun _ reached _ bound => isPlainName_of_bound reached bound) reached

/-- A frame holds the same `this` and the same `super` in all machines that lead to the same end. -/
theorem word_eq (one : m.KeepsWords r.last) (other : m'.KeepsWords r.last) {id : FrameId} (there : id < m.frames.size)
    (there' : id < m'.frames.size) (isWord : ¬ IsPlainName name) : (m'.frame id).get? name = (m.frame id).get? name :=
  (other.same id there' name isWord).symm.trans (one.same id there name isWord)

end Run

/-! ### How far out `super` is -/

namespace Scope

/-- The depth of the nearest scope with `super`. -/
def superDepth (σ : Levels) : Option Nat := depthOf? (namesOf (counted σ)) superName

theorem superDepth_scope {region : Region} (plain : ¬ region.names.contains superName = true) (σ : Levels) :
    superDepth (.scope region :: σ) = (superDepth σ).map (· + 1) := by
  have outer : namesOf (counted (.scope region :: σ)) = region.names :: namesOf (counted σ) := rfl
  rw [superDepth, outer, depthOf?_cons, if_neg plain]
  rfl

theorem superDepth_method (base : NameRef) (σ : Levels) :
    superDepth (methodLevels (.scope thisRegion) (some base) σ) = some 1 := rfl

theorem superDepth_declaringIn {name : String} (plain : IsPlainName name) (isSet : Bool) (σ : Levels) :
    superDepth (declaringIn name isSet σ) = superDepth σ := by
  cases σ with
  | nil => rfl
  | cons level σ =>
    cases level with
    | own => rfl
    | scope region =>
      have same : (region.names.put name isSet).contains superName = region.names.contains superName := by
        rw [Bindings.contains, Bindings.contains, Bindings.get?_put_of_ne _ _ (Ne.symm plain.2)]
      have inner : namesOf (counted (.scope region :: σ)) = region.names :: namesOf (counted σ) := rfl
      have after : namesOf (counted (declaringIn name isSet (.scope region :: σ))) =
          region.names.put name isSet :: namesOf (counted σ) := rfl
      rw [superDepth, superDepth, inner, after, depthOf?_cons, depthOf?_cons, same]

end Scope

namespace Run

open Scope (superDepth superDepth_scope superDepth_declaringIn superDepth_method)

variable {r : Run} {σ : Levels} {v w : Visit} {c : Call} {base new : Frames}

theorem ofExpr_argument {es : List Expr} (mentions : placed σ (exprsMentions es) ⊆ r.mentions)
    (parsed : Expr.AllParsed r.source es) (member : e ∈ es) : r.OfExpr σ e := by
  induction es with
  | nil => cases member
  | cons _ _ ih =>
    simp only [exprsMentions, placed_append, List.append_subset] at mentions
    rcases List.mem_cons.mp member with rfl | member
    · exact ⟨mentions.1, parsed.1⟩
    · exact ih mentions.2 parsed.2 member

theorem OfExpr.operand {part : Expr} (code : r.OfExpr σ e) (among : part ∈ e.operands) : r.OfExpr σ part := by
  obtain ⟨mentions, parsed⟩ := code
  cases e with
  | binary left op right | logical left op right =>
    simp only [exprMentions, placed_append, List.append_subset] at mentions
    simp only [Expr.operands, List.mem_cons, List.not_mem_nil, or_false] at among
    rcases among with rfl | rfl
    · exact ⟨mentions.1, parsed.1⟩
    · exact ⟨mentions.2, parsed.2⟩
  | conditional =>
    simp only [exprMentions, placed_append, List.append_subset] at mentions
    simp only [Expr.operands, List.mem_cons, List.not_mem_nil, or_false] at among
    rcases among with rfl | rfl | rfl
    · exact ⟨mentions.1.1, parsed.1⟩
    · exact ⟨mentions.1.2, parsed.2.1⟩
    · exact ⟨mentions.2, parsed.2.2⟩
  | unary _ inner | grouping inner | get inner _ =>
    obtain rfl := List.mem_singleton.mp among
    exact ⟨mentions, parsed⟩
  | assign =>
    simp only [exprMentions, placed_append, List.append_subset] at mentions
    obtain rfl := List.mem_singleton.mp among
    exact ⟨mentions.1, parsed.2⟩
  | set =>
    simp only [exprMentions, placed_append, List.append_subset] at mentions
    simp only [Expr.operands, List.mem_cons, List.not_mem_nil, or_false] at among
    rcases among with rfl | rfl
    · exact ⟨mentions.2, parsed.1⟩
    · exact ⟨mentions.1, parsed.2⟩
  | call =>
    simp only [exprMentions, placed_append, List.append_subset] at mentions
    rcases List.mem_cons.mp among with rfl | member
    · exact ⟨mentions.1, parsed.1⟩
    · exact ofExpr_argument mentions.2 parsed.2 member
  | literal | var | this | super | missing => cases among

/-- The scopes around an expression of a statement are as far from `super` as those around the statement. -/
theorem OfStmt.expression (code : r.OfStmt σ s) (among : e ∈ s.expressions) :
    ∃ σ', r.OfExpr σ' e ∧ superDepth σ' = superDepth σ := by
  obtain ⟨-, mentions, -, parsed⟩ := code
  cases s with
  | expression value | print value =>
    obtain rfl := List.mem_singleton.mp among
    exact ⟨σ, ⟨mentions, parsed⟩, rfl⟩
  | var =>
    obtain rfl := Option.mem_toList.mp among
    exact ⟨_, ⟨mentions, parsed.2 e rfl⟩, superDepth_declaringIn (isPlainName_of_names parsed.1) false σ⟩
  | returnValue =>
    obtain rfl := Option.mem_toList.mp among
    exact ⟨σ, ⟨mentions, parsed e rfl⟩, rfl⟩
  | ifElse _ _ no =>
    obtain rfl := List.mem_singleton.mp among
    cases no with
    | none =>
      simp only [stmtMentions, List.append_subset] at mentions
      exact ⟨σ, ⟨mentions.1, parsed.1⟩, rfl⟩
    | some =>
      simp only [stmtMentions, List.append_subset] at mentions
      exact ⟨σ, ⟨mentions.1.1, parsed.1⟩, rfl⟩
  | whileLoop =>
    obtain rfl := List.mem_singleton.mp among
    simp only [stmtMentions, List.append_subset] at mentions
    exact ⟨σ, ⟨mentions.1, parsed.1⟩, rfl⟩
  | block | breakLoop | function | classDef | traitDef | missing => cases among

theorem OfStmt.branch {t : Stmt} (code : r.OfStmt σ s) (among : t ∈ s.branches) : r.OfStmt σ t := by
  obtain ⟨place, mentions, functions, parsed⟩ := code
  cases s with
  | ifElse _ _ no =>
    cases no with
    | none =>
      simp only [stmtMentions, List.append_subset] at mentions
      obtain rfl := List.mem_singleton.mp among
      exact ⟨place, mentions.2, functions, parsed.2.2⟩
    | some =>
      simp only [stmtMentions, List.append_subset] at mentions
      simp only [Stmt.functions, List.append_subset] at functions
      simp only [Stmt.branches, Option.toList, List.mem_cons, List.not_mem_nil, or_false] at among
      rcases among with rfl | rfl
      · exact ⟨place, mentions.1.2, functions.1, parsed.2.1.2⟩
      · exact ⟨place, mentions.2, functions.2, parsed.2.2.2⟩
  | whileLoop =>
    simp only [stmtMentions, List.append_subset] at mentions
    obtain rfl := List.mem_singleton.mp among
    exact ⟨place, mentions.2, functions, parsed.2.2⟩
  | _ => cases among

theorem OfStmts.split {before rest : List Stmt} (code : r.OfStmts σ (before ++ s :: rest)) (place : Place σ) :
    ∃ σ', r.OfStmt σ' s ∧ superDepth σ' = superDepth σ := by
  induction before generalizing σ with
  | nil => exact ⟨σ, code.head place, rfl⟩
  | cons first _ ih =>
    obtain ⟨σ', here, same⟩ := ih code.tail (place.behind first)
    refine ⟨σ', here, same.trans ?_⟩
    unfold Scope.behindIn
    cases declares : declared? first with
    | none => rfl
    | some => exact superDepth_declaringIn (isPlainName_of_declared code.parsed.1 declares) true σ

/-- A node is run with some new frames in sight inside of others, and the scope with `super` is as far out as the second
one of these. -/
def Under (r : Run) (base : Frames) (w : Visit) : Prop :=
  ∃ σ new, w.machine.scope = new ++ base ∧ superDepth σ = some (new.length + 1) ∧
    match w.point with
    | .eval e => r.OfExpr σ e
    | .exec s => r.OfStmt σ s

theorem under_eval (point : w.point = .eval e) (code : r.OfExpr σ e) (chain : w.machine.scope = new ++ base)
    (depth : superDepth σ = some (new.length + 1)) : r.Under base w :=
  ⟨σ, new, chain, depth, by rw [point]; exact code⟩

theorem under_exec (point : w.point = .exec s) (code : r.OfStmt σ s) (chain : w.machine.scope = new ++ base)
    (depth : superDepth σ = some (new.length + 1)) : r.Under base w :=
  ⟨σ, new, chain, depth, by rw [point]; exact code⟩

theorem Under.inward (under : r.Under base v) (inward : v.Inward w) : r.Under base w := by
  obtain ⟨σ, new, chain, depth, code⟩ := under
  obtain ⟨enters, noCall⟩ := inward
  cases outer : v.point with
  | eval e =>
    rw [outer] at code
    cases inner : w.point with
    | exec s => exact absurd inner (noCall e s outer)
    | eval =>
      obtain ⟨among, same⟩ := enters.operand outer inner
      exact under_eval inner (code.operand among) (same.trans chain) depth
  | exec =>
    rw [outer] at code
    cases inner : w.point with
    | eval =>
      obtain ⟨among, same⟩ := enters.expression outer inner
      obtain ⟨σ', code', far⟩ := code.expression among
      exact under_eval inner code' (same.trans chain) (far.trans depth)
    | exec t =>
      rcases enters.statement outer inner with ⟨before, rest, id, rfl, one⟩ | ⟨among, same⟩
      · have body : r.OfStmts (.scope ⟨before ++ t :: rest, .empty⟩ :: σ) (before ++ t :: rest) :=
          ⟨code.mentions, code.functions, code.parsed⟩
        have place : Place (.scope ⟨before ++ t :: rest, .empty⟩ :: σ) := by
          rintro _ ⟨⟩
          simp [Level.region]
        obtain ⟨σ', code', far⟩ := body.split place
        have deeper : superDepth (.scope ⟨before ++ t :: rest, .empty⟩ :: σ) = some (new.length + 1 + 1) := by
          rw [superDepth_scope (by simp [Bindings.contains, Bindings.get?, Bindings.empty]), depth]
          rfl
        have chain' : w.machine.scope = (id :: new) ++ base := by rw [one, chain, List.cons_append]
        exact under_exec inner code' chain' (far.trans deeper)
      · exact under_exec inner (code.branch among) (same.trans chain) depth

theorem under_body (code : r.OfFunction σ c.function.decl) (plain : ∀ param ∈ c.function.decl.params.getD [],
    param.Names r.source) (chain : c.function.frames = new ++ base) (depth : superDepth σ = some (new.length + 1))
    (enters : c.Enters w) : r.Under base w := by
  obtain ⟨-, before, s, rest, split, point, ran⟩ := enters
  have unnamed : ¬ (functionRegion c.function.decl.params c.function.decl.body).names.contains superName = true := by
    intro named
    rcases Bindings.contains_putAll.mp named with member | empty
    · simp only [List.map_map, List.mem_map, Function.comp_apply] at member
      obtain ⟨param, isParam, same⟩ := member
      exact (isPlainName_of_names (plain param isParam)).2 same
    · simp [Bindings.contains, Bindings.get?, Bindings.empty] at empty
  have place : Place (.scope (functionRegion c.function.decl.params c.function.decl.body) :: σ) := by
    rintro _ ⟨⟩
    simp [Level.region, functionRegion, split]
  have body := code.2
  rw [split] at body
  obtain ⟨σ', code', far⟩ := body.split (split ▸ place)
  have deeper : superDepth (.scope (functionRegion c.function.decl.params c.function.decl.body) :: σ) =
      some (new.length + 1 + 1) := by
    rw [superDepth_scope unnamed, depth]
    rfl
  rw [split] at deeper
  have chain' : w.machine.scope = (c.machine.frames.size :: new) ++ base := by
    rw [scope_of_runAll ran, List.cons_append, ← chain]
    rfl
  exact under_exec point code' chain' (far.trans deeper)

theorem under_inside (body : ∀ w, c.Enters w → r.Under base w) (inside : c.Inside w) : r.Under base w := by
  induction inside with
  | body enters => exact body _ enters
  | inward _ step ih => exact ih.inward step

/-- What is written in a function that is declared in the body is run with the frames of the body outside of its own. -/
theorem under_houses (body : ∀ w, c.Enters w → r.Under base w) (houses : c.Houses r.program r.fuel r.start w) :
    r.Under base w := by
  induction houses with
  | own inside => exact under_inside body inside
  | @nested u v w decl inner _ declaration _ _ function inside ih =>
    obtain ⟨σ, new, chain, depth, code⟩ := ih
    rw [declaration] at code
    cases decl with
    | mk name params statements =>
      obtain ⟨-, mentions, functions, parsed⟩ := code
      have isFunction : r.OfFunction (declaringIn name.lexeme true σ) ⟨name, params, statements⟩ := by
        simp only [Stmt.functions, FunDecl.functions, List.cons_subset] at functions
        exact ⟨functions.1, mentions, functions.2, parsed.2.2⟩
      have far := superDepth_declaringIn (isPlainName_of_names parsed.1) true σ
      refine under_inside (fun w enters => ?_) inside
      refine under_body (c := inner) ?_ ?_ ?_ (far.trans depth) enters
      · rw [function]
        exact isFunction
      · rw [function]
        exact parsed.2.1
      · rw [function]
        exact chain

theorem params_of_mem {decls : List FunDecl} (parsed : FunDecl.AllParsed r.source decls) {decl : FunDecl}
    (member : decl ∈ decls) : ∀ param ∈ decl.params.getD [], param.Names r.source := by
  induction decls with
  | nil => cases member
  | cons _ _ ih =>
    rcases List.mem_cons.mp member with rfl | member
    · cases decl
      exact parsed.1.2.1
    · exact ih parsed.2 member

/-- A method of a class that extends another is run in a frame right inside that of `this`. -/
theorem under_method {n : Nat} (declared : r.Reaches ⟨n, .exec (.classDef decl), m⟩)
    (extends_ : decl.superclass.isSome = true) (method : c.function.decl ∈ decl.methods) (enters : c.Enters w) :
    r.Under c.function.frames w := by
  obtain ⟨-, σ, code, -⟩ := good_of_reaches declared
  cases decl with
  | mk =>
    obtain ⟨ref, rfl⟩ := Option.isSome_iff_exists.mp extends_
    obtain ⟨-, mentions, functions, parsed⟩ := code
    simp only [stmtMentions, List.append_subset] at mentions
    simp only [Stmt.functions, List.append_subset] at functions
    obtain ⟨-, -, all, -⟩ := parsed
    have isFunction := ofFunction_of_mem mentions.1.2 functions.1 all method
    have chain : c.function.frames = [] ++ c.function.frames := rfl
    exact under_body isFunction (params_of_mem all method) chain (superDepth_method ref _) enters

/-- A use of `super` looks up the class and the object in the outer frames that it is under. -/
theorem Under.readsSuper {k : Nat} {keyword : Token} {depth : Option Nat} {super_ : FrameId} {outer : Frames}
    (under : r.Under (object :: super_ :: outer) ⟨k + 1, .eval (.super keyword name depth), m⟩) :
    ∃ d, depth = some (d + 1) ∧ m.scope[d]? = some object ∧ m.scope[d + 1]? = some super_ := by
  obtain ⟨σ, new, chain, far, code⟩ := under
  have place : (σ, ⟨.super, keyword, depth, false⟩) ∈ r.mentions := code.mentions List.mem_cons_self
  have spelled : keyword.lexeme = superName := r.spelled.super_ keyword code.parsed.2 code.parsed.1
  have kept : depth = Scope.superDepth σ := by
    have found := (r.settled _ place).found rfl
    rw [spelled] at found
    exact found
  have chain : m.scope = new ++ object :: super_ :: outer := chain
  refine ⟨new.length, kept.trans far, ?_, ?_⟩
  · rw [chain, List.getElem?_append_right (Nat.le_refl _), Nat.sub_self]
    rfl
  · rw [chain, List.getElem?_append_right (Nat.le_add_right _ _), Nat.add_sub_cancel_left]
    rfl

end Run

/-! ### The method that is found -/

/-- The call is one of a method: of a function that was made for the instances of a class, bound to an object. -/
structure Call.OfMethod (c : Call) (f : Closure) (self : Value) : Prop where
  decl : c.function.decl = f.decl
  bound : ∃ id, c.function.frames = id :: f.frames ∧ (c.machine.frame id).get? thisName = some self

/-- What `super` yields: the method that is found in a class, bound to an object, or an error if there is none. -/
def Eval.FindsSuper (base : Class) (self : Value) (name : Token) (m : Machine)
    (result : EStateM.Result Ending Machine Value) : Prop :=
  (∃ f bound m', base.findMethod? name.lexeme = some (.closure f) ∧ result = .ok (.function bound) m' ∧
    f.BoundTo self m bound m') ∨
  (base.findMethod? name.lexeme = none ∧ result = .error (.crashed (.declaration (.noSuperMethod name.lexeme))) m)

theorem Eval.findsSuper_of_frames {d : Nat} {super_ : FrameId} (inner : m.scope[d]? = some object)
    (outer : m.scope[d + 1]? = some super_) (this_ : (m.frame object).get? thisName = some self)
    (extended : (m.frame super_).get? superName = some (.classObject base))
    (functions : ∀ method, base.findMethod? name.lexeme = some method → ∃ f, method = .closure f) :
    FindsSuper base self name m (readSuper name (some (d + 1)) m) := by
  have chain : scope m = .ok m.scope m := rfl
  have first : getAt m.scope (d + 1) superName m = .ok (.classObject base) m := by
    have found : ancestor m.scope (d + 1) m = .ok super_ m := by
      rw [ancestor, outer]
      rfl
    rw [getAt, bind_of_ok found]
    show EStateM.Result.ok (((m.frame super_).get? superName).getD .nil) m = _
    rw [extended]
    rfl
  have second : getAt m.scope (d + 1 - 1) thisName m = .ok self m := by
    have found : ancestor m.scope (d + 1 - 1) m = .ok object m := by
      rw [ancestor, Nat.add_sub_cancel, inner]
      rfl
    rw [getAt, bind_of_ok found]
    show EStateM.Result.ok (((m.frame object).get? thisName).getD .nil) m = _
    rw [this_]
    rfl
  rw [readSuper, bind_of_ok chain, bind_of_ok first, bind_of_ok second]
  cases found : base.findMethod? name.lexeme with
  | none =>
    simp only [found]
    exact .inr ⟨found, rfl⟩
  | some method =>
    obtain ⟨f, rfl⟩ := functions method found
    obtain ⟨bound, m', binds, boundTo⟩ := f.boundTo_bindThis self m
    simp only [found]
    exact .inl ⟨f, bound, m', found, bind_of_ok binds, boundTo⟩

namespace Run

variable {r : Run}

/-- The frame of an object that a call was made with holds the object to the end. -/
theorem this_eq {v : Visit} {c : Call} (reached : r.Reaches v) (calls : v.Calls c)
    (first : c.Enters ⟨c.fuel, .exec s, c.entry⟩) (bound : (c.machine.frame object).get? thisName = some self)
    (leads : m.KeepsWords r.last) (there : object < m.frames.size) : (m.frame object).get? thisName = some self := by
  have inside : object < c.machine.frames.size := by
    have contained : (c.machine.frame object).contains thisName = true := by
      rw [Bindings.contains, bound]
      rfl
    exact Machine.lt_size_of_contains contained
  have entry : (c.entry.frame object).get? thisName = some self := by
    rw [← bound, ← Machine.frame_push_of_lt inside]
    rfl
  have began := keepsWords_last (reached.inner (calls.enters first))
  have larger : object < c.entry.frames.size := Nat.lt_of_lt_of_le inside (by simp [Call.entry])
  rw [← entry]
  exact word_eq began leads larger there fun plain => plain.1 rfl

/-- The frame with `super` that a class was declared with holds the class that it extends to the end. -/
theorem super_eq {n : Nat} (declared : r.Reaches ⟨n + 1, .exec (.classDef decl), m⟩)
    (extended : readSuperclass decl.superclass m = .ok (some base) m) (leads : m'.KeepsWords r.last)
    (there : (m.defining decl.name.lexeme .nil).frames.size < m'.frames.size) :
    (m'.frame (m.defining decl.name.lexeme .nil).frames.size).get? superName = some (.classObject base) := by
  let site := m.classSite decl (some base)
  have plain := isPlainName_of_bound declared (show Point.bound? (.exec (.classDef decl)) = some _ from rfl)
  have lasting := lasting_keepsWords
  have kept : site.KeepsWords ((declareClass decl).after m) := by
    rcases declareClass_of_read extended with ⟨ending, m₁, failed, ends⟩ | ⟨k, m₁, made, ends⟩
    · have kept := (step_makeClass lasting decl (some base)).keeps.of_error failed
      simpa only [after, ends] using kept
    · have kept := (step_makeClass lasting decl (some base)).keeps.of_ok made
      have rescoped : m₁.KeepsWords { m₁ with scope := m.scope } := Machine.keepsWords_of_frames rfl
      have named := (step_assignNamed lasting m.scope decl.name (.classObject k) plain).keeps { m₁ with scope := m.scope }
      have same : (declareClass decl).after m =
          (assignNamed m.scope decl.name (.classObject k)).after { m₁ with scope := m.scope } := by
        simp only [after, ends]
      rw [same]
      exact kept.trans (rescoped.trans named)
  have holds : (site.frame (m.defining decl.name.lexeme .nil).frames.size).get? superName = some (.classObject base) := by
    have frame := Machine.frame_push_size (m.defining decl.name.lexeme .nil)
      (Bindings.empty.put superName (.classObject base))
    have same : site.frame (m.defining decl.name.lexeme .nil).frames.size =
        Bindings.empty.put superName (.classObject base) := frame
    rw [same, Bindings.get?_put_self]
  have inside : (m.defining decl.name.lexeme .nil).frames.size < site.frames.size := by
    simp [site, Machine.classSite, Machine.entering]
  rw [← holds]
  exact word_eq (kept.trans (keepsWords_behind declared)) leads inside there fun plain => plain.2 rfl

end Run

/-- The class that a class extends is a declared one, and so its methods are functions. -/
theorem isFunction_of_extended {program : List Stmt} {fuel : Nat} {clock dice : Readings} {v : Visit}
    {superclass : Option NameRef} (reached : Reached program fuel (Machine.start clock dice) v)
    (extended : readSuperclass superclass v.machine = .ok (some base) v.machine) {name : String}
    {method : Method} (found : base.findMethod? name = some method) : ∃ f, method = .closure f := by
  have ran : RanIn (.start clock dice) [(fuel, program)] v := ⟨[], (fuel, program), [], rfl, reached⟩
  have holds := (Rule.holds_law _).mpr (holds_of_ranIn ran)
  have declared : base.Declared (RanIn (.start clock dice) [(fuel, program)]) := holds.ofBase extended base rfl
  exact declared.isFunction found

/-- Wherever `super` is used in a method of a class that extends another, it finds the methods of that other class. -/
theorem Run.findsSuper {r : Run} {n : Nat} (declared : r.Reaches ⟨n + 1, .exec (.classDef decl), m⟩)
    (extended : readSuperclass decl.superclass m = .ok (some base) m) {f : Closure}
    (method : f ∈ (m.classSite decl (some base)).instanceFunctions decl) {v : Visit} {c : Call}
    (reached : r.Reaches v) (calls : v.Calls c) (ofMethod : c.OfMethod f self) {k : Nat} {keyword : Token}
    {depth : Option Nat} (houses : c.Houses r.program r.fuel r.start ⟨k + 1, .eval (.super keyword name depth), m'⟩) :
    FindsSuper base self name m' (evaluate (k + 1) (.super keyword name depth) m') := by
  obtain ⟨sameDecl, object, frames, bound⟩ := ofMethod
  have made := madeFrom_closuresFrom (fun method => method.name.lexeme = initName) (m.classSite decl (some base)).scope
    ((m.classSite decl (some base)).fresh + decl.classMethods.length) decl.methods
  have inBody : c.function.decl ∈ decl.methods := by
    rw [sameDecl, ← made.decls]
    exact List.mem_map_of_mem method
  have extends_ : decl.superclass.isSome = true := by
    cases isBase : decl.superclass with
    | none =>
      rw [isBase] at extended
      cases extended
    | some => rfl
  -- The frame of `super` is the newest one where the class is made.
  let super_ := (m.defining decl.name.lexeme .nil).frames.size
  have chain : c.function.frames = object :: super_ :: m.scope := by
    rw [frames, made.frames f method, ← m.scope_defining decl.name.lexeme .nil]
    rfl
  have under : r.Under (object :: super_ :: m.scope) ⟨k + 1, .eval (.super keyword name depth), m'⟩ := by
    rw [← chain]
    exact under_houses (fun w enters => under_method declared extends_ inBody enters) houses
  obtain ⟨d, rfl, inner, outer⟩ := under.readsSuper
  have here : r.Reaches ⟨k + 1, .eval (.super keyword name (some (d + 1))), m'⟩ := houses.reached reached calls
  obtain ⟨-, σ, -, lockstep⟩ := good_of_reaches here
  have leads : m'.KeepsWords r.last := keepsWords_last here
  obtain ⟨s, first⟩ := houses.exists_first
  have this_ : (m'.frame object).get? thisName = some self :=
    this_eq reached calls first bound leads (lockstep.below object (List.mem_of_getElem? inner))
  have class_ : (m'.frame super_).get? superName = some (.classObject base) :=
    super_eq declared extended leads (lockstep.below super_ (List.mem_of_getElem? outer))
  exact findsSuper_of_frames inner outer this_ class_ fun method found =>
    isFunction_of_extended declared extended found

/-- Dispatch to the class that is extended is static. In the run of an accepted program, let a class be declared that
extends another, and let a function of its methods be called, bound to an object. Wherever `super` is used in the body
of the method or in a function that is declared there, it yields the method of that other class, bound to that object,
or an error if there is no such method. -/
theorem super_dispatches_statically {source : String} {program : List Stmt} (accepted : Accepted source program)
    (fuel : Nat) (clock dice : Readings) {n : Nat} {decl : ClassDecl} {m : Machine} {base : Class}
    (declared : Reached program fuel (.start clock dice) ⟨n + 1, .exec (.classDef decl), m⟩)
    (extended : Eval.readSuperclass decl.superclass m = .ok (some base) m) {f : Closure}
    (method : f ∈ (m.classSite decl (some base)).instanceFunctions decl) {v : Visit} {c : Call} {self : Value}
    (reached : Reached program fuel (.start clock dice) v) (calls : v.Calls c) (ofMethod : c.OfMethod f self)
    {k : Nat} {keyword name : Token} {depth : Option Nat} {m' : Machine}
    (houses : c.Houses program fuel (.start clock dice) ⟨k + 1, .eval (.super keyword name depth), m'⟩) :
    Eval.FindsSuper base self name m' (Eval.evaluate (k + 1) (.super keyword name depth) m') :=
  Run.findsSuper (r := .ofAccepted accepted fuel clock dice) declared extended method reached calls ofMethod houses

/-! A class that extends another one and calls upon it in a method of the same name. Without parameters, that is a
getter. -/

section
variable (params : Option (List Token))

def upwardFound : FunDecl := ⟨.named "m", params, []⟩

def upwardBase : Stmt := .classDef ⟨.named "A", none, [upwardFound params], [], []⟩

def upwardUse (depth : Option Nat) : Expr := .super ⟨.kwSuper, "super", .nil, 1⟩ (.named "m") depth

def upwardMethod (depth : Option Nat) : FunDecl := ⟨.named "m", some [], [.expression (upwardUse depth)]⟩

def upwardClass (depth : Option Nat) : ClassDecl :=
  ⟨.named "B", some ⟨.named "A", none⟩, [upwardMethod depth], [], []⟩

def upwardCallee : Expr := .get (.call (.var (.named "B") none) ⟨.rightParen, ")", .nil, 1⟩ []) (.named "m")

def upwardCall : Expr := .call upwardCallee ⟨.rightParen, ")", .nil, 1⟩ []

def upwardProgram (depth : Option Nat) : List Stmt :=
  [upwardBase params, .classDef (upwardClass depth), .expression upwardCall]

def upwardMachine : Machine := (execute 5 (upwardBase params)).after (.start {} {})

def upwardAfter : Machine := (execute 5 (.classDef (upwardClass (some 2)))).after (upwardMachine params)

def upwardExtended : Class where
  id := 1
  name := "A"
  superclass := none
  metaclass := some ⟨0, "A metaclass", none, none, .empty⟩
  methods := ⟨[("m", .closure ⟨0, upwardFound params, [0], false⟩)]⟩

theorem readSuperclass_upward : readSuperclass (upwardClass (some 2)).superclass (upwardMachine params) =
    .ok (some (upwardExtended params)) (upwardMachine params) := rfl

def upwardFunction : Closure := ⟨1, upwardMethod (some 2), [1, 0], false⟩

theorem mem_upwardFunction : upwardFunction ∈ ((upwardMachine params).classSite (upwardClass (some 2))
    (some (upwardExtended params))).instanceFunctions (upwardClass (some 2)) := List.mem_singleton.mpr rfl

def upwardCalled : Call where
  fuel := 3
  function := ⟨2, upwardMethod (some 2), [2, 1, 0], false⟩
  args := []
  machine := (evaluate 3 upwardCallee).after (upwardAfter params)

theorem calls_upward : Visit.Calls ⟨4, .eval upwardCall, upwardAfter params⟩ (upwardCalled params) := by
  have callee : (evaluate 3 upwardCallee).run' (upwardAfter params) = some (.function (upwardCalled params).function) := by
    cbv
  exact .function (ok_of_run' callee) rfl rfl

theorem execute_upwardClass :
    execute 5 (.classDef (upwardClass (some 2))) (upwardMachine params) = .ok () (upwardAfter params) := ok_of_run' rfl

theorem reached_upwardClass : Reached (upwardProgram params (some 2)) 5 (.start {} {})
    ⟨5, .exec (.classDef (upwardClass (some 2))), upwardMachine params⟩ :=
  .statement (show upwardProgram params (some 2) = [_] ++ _ :: [_] from rfl) rfl

theorem reached_upwardCall :
    Reached (upwardProgram params (some 2)) 5 (.start {} {}) ⟨4, .eval upwardCall, upwardAfter params⟩ := by
  have split : upwardProgram params (some 2) =
      [upwardBase params, .classDef (upwardClass (some 2))] ++ .expression upwardCall :: [] := rfl
  have base : execute 5 (upwardBase params) (.start {} {}) = .ok () (upwardMachine params) := rfl
  have ran : runAll (execute 5) [upwardBase params, .classDef (upwardClass (some 2))] (.start {} {}) =
      .ok () (upwardAfter params) := (bind_of_ok base).trans (bind_of_ok (execute_upwardClass params))
  have call : Reached (upwardProgram params (some 2)) 5 (.start {} {})
      ⟨5, .exec (.expression upwardCall), upwardAfter params⟩ := .statement split ran
  exact call.inner Visit.enters_expression

theorem houses_upward : (upwardCalled params).Houses (upwardProgram params (some 2)) 5 (.start {} {})
    ⟨2, .eval (upwardUse (some 2)), (upwardCalled params).entry⟩ := by
  have body : (upwardCalled params).Enters ⟨3, .exec (.expression (upwardUse (some 2))), (upwardCalled params).entry⟩ :=
    ⟨rfl, [], .expression (upwardUse (some 2)), [], rfl, rfl, rfl⟩
  refine .own (.inward (.body body) ⟨Visit.enters_expression, ?_⟩)
  intro e s isExpr
  cases isExpr

end

def upwardSource : String := "class A\x7bm()\x7b\x7d\x7dclass B<A\x7bm()\x7bsuper.m;\x7d\x7dB().m();"

theorem accepted_upward : Accepted upwardSource (upwardProgram (some []) (some 2)) :=
  .of_steps rfl rfl rfl (Grammar.derives_statements .oneLine (upwardProgram (some []) none) rfl) rfl rfl

/-- In the method of the second class, `super` finds the method of the first, bound to the object of the second. -/
theorem super_dispatches_upward :
    Accepted upwardSource (upwardProgram (some []) (some 2)) ∧
      ∃ self bound m', (upwardCalled (some [])).OfMethod upwardFunction self ∧
        Eval.evaluate 2 (upwardUse (some 2)) (upwardCalled (some [])).entry = .ok (.function bound) m' ∧
        bound.decl = ⟨.named "m", some [], []⟩ ∧ bound.frames = [4, 0] ∧
        (m'.frame 4).get? thisName = some self := by
  have ofMethod : (upwardCalled (some [])).OfMethod upwardFunction _ := ⟨rfl, 2, rfl, rfl⟩
  refine ⟨accepted_upward, ?_⟩
  rcases super_dispatches_statically accepted_upward 5 {} {} (reached_upwardClass _) (readSuperclass_upward _)
    (mem_upwardFunction _) (reached_upwardCall _) (calls_upward _) ofMethod (houses_upward _) with
    ⟨f, bound, m', found, ends, boundTo⟩ | ⟨missing, -⟩
  · cases found
    refine ⟨_, bound, m', ofMethod, ends, boundTo.decl, boundTo.frames, ?_⟩
    rw [Machine.frame, boundTo.receiver]
    rfl
  · cases missing

end LoxLang
