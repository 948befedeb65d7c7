import LoxLang.Proofs.LockstepKept

/-!
The frames and the scopes are in lockstep throughout a run. A body that runs in a new frame is in step because its first
statement is run there; each layer of evaluation is in order if its parts are; and so, by induction on the number of
layers, is every node that is run.
-/

namespace LoxLang.Run

open Eval Simulation

variable {s : Stmt} {σ : Levels} {rest : List Stmt} {e : Expr} {n : Nat}

open Scope (Region Level Levels exprMentions exprsMentions optionMentions stmtMentions stmtsMentions functionMentions
  functionRegion declaringIn behindIn declared? placed placed_append)

variable {α β : Type} {r : Run} {m : Machine}

/-- The frames in sight are those of the scopes around a node of the program. -/
def Fits (r : Run) (m : Machine) : Point → Prop
  | .eval e => ∃ σ, r.OfExpr σ e ∧ r.Lockstep m σ m.scope
  | .exec s => ∃ σ, r.OfStmt σ s ∧ r.Lockstep m σ m.scope

/-- The name that a statement declares is bound. -/
def Binds (s : Stmt) (m : Machine) : Prop := ∀ name, declared? s = some name → Innermost m name

theorem binds_of_undeclared (undeclared : declared? s = none) (m : Machine) : Binds s m := by
  intro name declares
  rw [undeclared] at declares
  cases declares

/-- Parts that end in order wherever a node of the program can be run. A statement that ends well has been run. -/
structure PartsOk (r : Run) (n : Nat) (parts : Parts) : Prop where
  eval : ∀ e m, r.MachineOk m → (r.Reaches ⟨n, .eval e, m⟩ → r.Fits m (.eval e)) → r.Sound m (parts.eval e) r.Yields
  exec : ∀ s m, r.MachineOk m → (r.Reaches ⟨n, .exec s, m⟩ → r.Fits m (.exec s)) →
    r.Sound m (parts.exec s) fun _ m' => Binds s m' ∧ r.Reaches ⟨n, .exec s, m⟩

theorem Ends.andThen {x : Eval α} {f : α → Eval β} {P : α → Machine → Prop} {R : β → Machine → Prop}
    (first : r.Sound m x P) (second : ∀ a m', r.Follows m m' → P a m' → r.Sound m' (f a) R) : r.Sound m (x >>= f) R := by
  refine first.bind fun a m' follows result => ?_
  have rest := second a m' follows result
  rwa [Sound, follows.scope] at rest

theorem Ends.ran {Way : Ending → Machine → Prop} {x : Eval α} {Q : α → Machine → Prop} (h : r.Ends Way m x Q) :
    r.Ends Way m x fun a m' => Q a m' ∧ x m = .ok a m' := by
  cases ends : x m with
  | ok => exact ends_of_ok ends (h.of_ok ends).1 ⟨(h.of_ok ends).2, rfl⟩
  | error =>
    obtain ⟨grows, ok, way⟩ := h.of_error ends
    exact ends_of_error ends grows ok way

/-! ### Statements in order -/

theorem Place.behind (place : Place σ) (s : Stmt) : Place (behindIn s σ) := by
  unfold Scope.behindIn
  split
  · unfold Scope.declaringIn
    split
    · rename_i inner outer
      rintro _ ⟨⟩
      exact place (.scope inner) rfl
    · exact place
  · exact place

theorem Follows.behind {m' : Machine} (follows : r.Follows m m') (bound : Binds s m')
    (lockstep : r.Lockstep m σ m.scope) (place : Place σ) : r.Lockstep m' (behindIn s σ) m'.scope := by
  unfold Scope.behindIn
  split
  · rename_i name declares
    exact follows.declaring (bound name declares) lockstep place
  · exact follows.lockstep lockstep

theorem OfStmts.head (code : r.OfStmts σ (s :: rest)) (place : Place σ) : r.OfStmt σ s :=
  ⟨place, fun _ member => code.mentions (List.mem_append_left _ member),
    fun _ member => code.functions (List.mem_append_left _ member), code.parsed.1⟩

theorem OfStmts.tail (code : r.OfStmts σ (s :: rest)) : r.OfStmts (behindIn s σ) rest :=
  ⟨fun _ member => code.mentions (List.mem_append_right _ member),
    fun _ member => code.functions (List.mem_append_right _ member), code.parsed.2⟩

section
variable {n : Nat} {parts : Parts} (partsOk : r.PartsOk n parts)
include partsOk

theorem sound_runAll {body : List Stmt} (code : r.OfStmts σ body) (place : Place σ) (ok : r.MachineOk m)
    (lockstep : r.Lockstep m σ m.scope) : r.Sound m (runAll parts.exec body) Anything := by
  induction body generalizing m σ with
  | nil => exact ends_pure ok trivial
  | cons s _ ih =>
    have first := partsOk.exec s m ok fun _ => ⟨σ, code.head place, lockstep⟩
    refine first.andThen fun _ m₁ follows result => ?_
    exact ih code.tail (place.behind s) follows.ok (follows.behind result.1 lockstep place)

/-- A body that runs in a new frame. Once its first statement has been run, the frame is known to be made for it. -/
theorem sound_runAll_fresh {region : Region} (code : r.OfStmts (.scope region :: σ) region.body) (ok : r.MachineOk m)
    {id : FrameId} {outer : Frames} (inSight : m.scope = id :: outer) (newest : m.frames.size = id + 1)
    (older : ∀ other ∈ outer, other < id)
    (bound : ∀ name, region.names.get? name = some true → (m.frame id).contains name = true)
    (around : r.Lockstep m σ outer) : r.Sound m (runAll parts.exec region.body) Anything := by
  cases body : region.body with
  | nil => exact ends_pure ok trivial
  | cons s rest =>
    have place : Place (.scope region :: σ) := by
      rintro _ ⟨⟩
      simp [Level.region, body]
    rw [body] at code
    have inStep (reached : r.Reaches ⟨n, .exec s, m⟩) : r.Lockstep m (.scope region :: σ) m.scope := by
      rw [inSight]
      exact ⟨⟨newest ▸ Nat.lt_succ_self id, bound, .inl ⟨s, rest, n, m, body, reached, inSight, newest⟩, older⟩, around⟩
    have first := partsOk.exec s m ok fun reached => ⟨.scope region :: σ, code.head place, inStep reached⟩
    refine first.andThen fun _ m₁ follows result => ?_
    exact sound_runAll partsOk code.tail (place.behind s) follows.ok (follows.behind result.1 (inStep result.2) place)

omit partsOk in
theorem sound_within {chain : Frames} {body : Eval Unit} (inner : r.Sound { m with scope := chain } body Anything) :
    r.Sound m (within chain body) Anything := by
  cases ends : body { m with scope := chain } with
  | ok u m' =>
    obtain ⟨follows, -⟩ := inner.of_ok ends
    have run : within chain body m = .ok u { m' with scope := m.scope } := by simp only [within, ends]
    exact ends_of_ok run ⟨rfl, ⟨follows.grows.size, follows.grows.bound⟩, follows.ok.rescope _⟩ trivial
  | error ending m' =>
    obtain ⟨grows, ok, way⟩ := inner.of_error ends
    have run : within chain body m = .error ending { m' with scope := m.scope } := by
      simp only [within, ends]
    refine ends_of_error run ⟨grows.size, grows.bound⟩ (ok.rescope _) ?_
    cases ending with
    | returned => exact ⟨rfl, way.2.of_frames rfl⟩
    | broke => rfl
    | crashed | failed | outOfFuel => exact way

/-- The statements of a scope are run in a new frame with the names of the scope that are set. -/
theorem sound_scope {region : Region} (code : r.OfStmts (.scope region :: σ) region.body) (ok : r.MachineOk m)
    {outer : Frames} (around : r.Lockstep m σ outer) {bindings : Bindings Value} (values : bindings.All (r.ValueOk m))
    (bound : ∀ name, region.names.get? name = some true → bindings.contains name = true) :
    r.Sound { m with frames := m.frames.push bindings }
      (within (m.frames.size :: outer) (runAll parts.exec region.body)) Anything := by
  have frame := m.frame_push_size bindings
  have pushed := (ok.push values).rescope (m.frames.size :: outer)
  refine sound_within (sound_runAll_fresh partsOk code pushed rfl (by simp) around.below (fun name set => ?_) ?_)
  · have there := bound name set
    rwa [← frame] at there
  · exact (around.mono (m.grows_push bindings)).of_frames rfl

/-! ### Calls -/

omit partsOk in
theorem sound_catchReturn {body : Eval Unit} {otherwise : Eval Value} (inner : r.Sound m body Anything)
    (last : ∀ m', r.Follows m m' → r.Sound m' otherwise r.Yields) :
    r.Sound m (catchReturn body otherwise) r.Yields := by
  cases ends : body m with
  | ok _ m' =>
    obtain ⟨follows, -⟩ := inner.of_ok ends
    have run : catchReturn body otherwise m = otherwise m' := by simp only [catchReturn, ends]
    have rest := last m' follows
    cases finish : otherwise m' with
    | ok =>
      obtain ⟨more, result⟩ := rest.of_ok finish
      exact ends_of_ok (run.trans finish) (follows.trans more) result
    | error =>
      obtain ⟨more, ok, way⟩ := rest.of_error finish
      rw [follows.scope] at way
      exact ends_of_error (run.trans finish) (follows.grows.trans more) ok way
  | error ending m' =>
    obtain ⟨grows, ok, way⟩ := inner.of_error ends
    cases ending with
    | returned value =>
      have run : catchReturn body otherwise m = .ok value m' := by simp only [catchReturn, ends]
      exact ends_of_ok run ⟨way.1, grows, ok⟩ way.2
    | broke | failed | crashed | outOfFuel =>
      exact ends_of_error (by simp only [catchReturn, ends]) grows ok way

omit partsOk in
theorem quiet_withoutReturn (ok : r.MachineOk m) {f : Closure} (function : r.FunctionOk m f) :
    r.Quiet m (withoutReturn f) r.Yields := by
  unfold withoutReturn
  split
  · rename_i isInitializer
    obtain ⟨id, outer, frames, -⟩ := function.2 isInitializer
    have there : f.frames[0]? = some id := by simp [frames]
    refine (quiet_getAt ok (fun _ => ⟨id, there⟩) thisName).imp fun value m' _ result => ?_
    obtain ⟨fine, rfl⟩ := result
    exact fine
  · exact ends_pure ok trivial

/-- The parameters of a function that is called with as many arguments are bound. -/
theorem sound_callClosure (ok : r.MachineOk m) {f : Closure} (function : r.FunctionOk m f) {args : List Value}
    (given : ∀ value ∈ args, r.ValueOk m value) (enough : args.length = f.decl.arity) :
    r.Sound m (callClosure parts.exec f args) r.Yields := by
  obtain ⟨⟨σ, ⟨-, code⟩, around⟩, object⟩ := id function
  let names := (f.decl.params.getD []).map Token.lexeme
  let bindings : Bindings Value := Bindings.empty.putAll (names.zip args)
  have values : bindings.All (r.ValueOk m) := Bindings.all_empty.putAll fun entry member =>
    given entry.2 (List.of_mem_zip member).2
  have all : (names.zip args).map Prod.fst = names := List.map_fst_zip (by simp [names, enough, FunDecl.arity])
  have bound : ∀ name, (functionRegion f.decl.params f.decl.body).names.get? name = some true →
      bindings.contains name = true := by
    intro name set
    have declared : (Bindings.empty.putAll (names.map (·, true))).contains name = true := by
      rw [Bindings.contains, Option.isSome_iff_exists]
      exact ⟨true, set⟩
    rw [Bindings.contains_putAll, List.map_map] at declared
    have member : name ∈ names := by
      simpa [Bindings.contains, Bindings.get?, Bindings.empty, Function.comp_def] using declared
    rw [Bindings.contains_putAll, all]
    exact .inl member
  have entered : r.Follows m { m with frames := m.frames.push bindings } := ⟨rfl, m.grows_push _, ok.push values⟩
  have frame : r.Sound m (newFrame bindings) fun id m' =>
      id = m.frames.size ∧ m' = { m with frames := m.frames.push bindings } := ends_of_ok rfl entered ⟨rfl, rfl⟩
  refine frame.andThen fun id m₁ follows made => ?_
  obtain ⟨rfl, rfl⟩ := made
  refine sound_catchReturn (sound_scope partsOk code ok around values bound) fun m₂ later => ?_
  exact (quiet_withoutReturn later.ok (function.mono (follows.trans later).grows)).sound

/-! ### Layers -/

theorem sound_eval (mentions : placed σ (exprMentions e) ⊆ r.mentions) (parsed : e.Parsed r.source)
    (ok : r.MachineOk m) (lockstep : r.Lockstep m σ m.scope) : r.Sound m (parts.eval e) r.Yields :=
  partsOk.eval e m ok fun _ => ⟨σ, ⟨mentions, parsed⟩, lockstep⟩

theorem sound_evalOption {e : Option Expr} (mentions : placed σ (optionMentions e) ⊆ r.mentions)
    (parsed : Expr.OptionParsed r.source e) (ok : r.MachineOk m) (lockstep : r.Lockstep m σ m.scope) :
    r.Sound m (evalOption parts.eval e) r.Yields := by
  cases e with
  | none => exact ends_pure ok trivial
  | some e => exact sound_eval partsOk mentions (parsed e rfl) ok lockstep

omit partsOk in
/-- The run by itself, with a chain in sight. -/
abbrev soundly (r : Run) (chain : Frames) : Simulation Machine :=
  (@upkeep r chain (r.Way chain) fun _ _ => way_of_calms).simulation

theorem PartsOk.evals (mentions : placed σ (exprMentions e) ⊆ r.mentions) (parsed : e.Parsed r.source)
    (lockstep : r.Lockstep m σ m.scope) : (r.soundly m.scope).Evals parts parts m e e := by
  rintro u _ _ follows ⟨rfl, rfl, ok, inSight⟩
  have sound := sound_eval partsOk mentions parsed ok (follows.lockstep lockstep)
  rw [Sound, inSight] at sound
  exact sound.follows inSight fun _ _ fine => ⟨rfl, fine⟩

theorem PartsOk.evalsAll {es : List Expr} (mentions : placed σ (exprsMentions es) ⊆ r.mentions)
    (parsed : Expr.AllParsed r.source es) (lockstep : r.Lockstep m σ m.scope) :
    List.Forall₂ ((r.soundly m.scope).Evals parts parts m) es es := by
  induction es with
  | nil => exact .nil
  | cons _ _ ih =>
    simp only [exprsMentions, placed_append, List.append_subset] at mentions
    exact .cons (partsOk.evals mentions.1 parsed.1 lockstep) (ih mentions.2 parsed.2)

theorem PartsOk.calls (m : Machine) : (r.soundly m.scope).Calls m parts.exec parts.exec := by
  rintro u _ _ f _ args _ _ ⟨rfl, rfl, ok, inSight⟩ ⟨rfl, function⟩ given enough
  obtain ⟨rfl, fine⟩ := Upkeep.allows_left given
  have sound := sound_callClosure partsOk ok function fine enough
  rw [Sound, inSight] at sound
  exact sound.follows inSight fun _ _ fine => ⟨rfl, fine⟩

theorem sound_evalStep (code : r.OfExpr σ e) (ok : r.MachineOk m) (lockstep : r.Lockstep m σ m.scope) :
    r.Sound m (evalStep parts e) r.Yields := by
  obtain ⟨mentions, parsed⟩ := code
  have pair : (r.soundly m.scope).Machines m m m := ⟨rfl, rfl, ok, rfl⟩
  have yields {x : Eval Value} (follows : (r.soundly m.scope).Follows m m m x x (r.soundly m.scope).Values) :
      r.Sound m x r.Yields := ends_of_follows follows fun _ _ _ alike => alike.2
  have calls := partsOk.calls m
  cases e with
  | binary =>
    simp only [exprMentions, placed_append, List.append_subset] at mentions
    exact yields (follows_binary _ pair (partsOk.evals mentions.1 parsed.1 lockstep) rfl
      (partsOk.evals mentions.2 parsed.2 lockstep))
  | logical =>
    simp only [exprMentions, placed_append, List.append_subset] at mentions
    exact yields (follows_logical _ pair (partsOk.evals mentions.1 parsed.1 lockstep) rfl
      (partsOk.evals mentions.2 parsed.2 lockstep))
  | unary =>
    exact yields (follows_unary _ pair rfl (partsOk.evals mentions parsed lockstep))
  | conditional test yes no =>
    simp only [exprMentions, placed_append, List.append_subset] at mentions
    obtain ⟨⟨test, yes⟩, no⟩ := mentions
    exact yields (follows_conditional _ pair (partsOk.evals test parsed.1 lockstep)
      (partsOk.evals yes parsed.2.1 lockstep) (partsOk.evals no parsed.2.2 lockstep))
  | grouping => exact sound_eval partsOk mentions parsed ok lockstep
  | literal value => exact ends_pure ok (valueOk_of_isPlain (by cases value <;> rfl))
  | var name depth | this name depth =>
    exact (quiet_readName ok fun isExact d kept => mention_there lockstep (mentions List.mem_cons_self) isExact kept).sound
  | assign _ _ depth =>
    simp only [exprMentions, placed_append, List.append_subset] at mentions
    refine yields (follows_assign _ pair (partsOk.evals mentions.1 parsed.2 lockstep) ?_)
    rintro _ _ m₁ _ _ one ⟨rfl, rfl, ok₁, inSight⟩ ⟨rfl, fine⟩
    have there : r.exact = true → ∀ d, depth = some d → ∃ id, m₁.scope[d]? = some id := fun isExact d kept =>
      mention_there (one.lockstep lockstep) (mentions.2 List.mem_cons_self) isExact kept
    exact (quiet_assignName ok₁ there fine).sound.follows inSight fun _ _ _ => rfl
  | call =>
    simp only [exprMentions, placed_append, List.append_subset] at mentions
    exact yields (follows_call _ pair calls (partsOk.evals mentions.1 parsed.1 lockstep) rfl
      (partsOk.evalsAll mentions.2 parsed.2 lockstep))
  | get object =>
    exact yields (follows_getStep _ pair calls (partsOk.evals (e := object) mentions parsed lockstep) rfl)
  | set =>
    simp only [exprMentions, placed_append, List.append_subset] at mentions
    exact yields (follows_setStep _ pair (partsOk.evals mentions.2 parsed.1 lockstep) rfl
      (partsOk.evals mentions.1 parsed.2 lockstep))
  | super keyword _ depth =>
    have place : (σ, ⟨.super, keyword, depth, false⟩) ∈ r.mentions := mentions List.mem_cons_self
    obtain ⟨d, rfl, -⟩ := (r.settled _ place).lookup rfl
    have there (isExact : r.exact = true) : (∃ id, m.scope[d + 1]? = some id) ∧ ∃ id, m.scope[d]? = some id := by
      obtain ⟨id, here⟩ := mention_there lockstep place isExact rfl
      have inside : d + 1 < m.scope.length := (List.getElem?_eq_some_iff.mp here).1
      exact ⟨⟨id, here⟩, _, List.getElem?_eq_getElem (by omega)⟩
    refine yields (follows_readSuper pair rfl ?_ ?_)
    · refine (quiet_getAt ok (fun isExact => (there isExact).1) superName).sound.follows rfl fun _ _ found => ⟨rfl, ?_⟩
      exact found.2 ▸ found.1
    · rintro u _ _ _ ⟨rfl, rfl, ok₁, inSight⟩
      refine (quiet_getAt ok₁ (fun isExact => (there isExact).2) thisName).sound.follows inSight fun _ _ found => ⟨rfl, ?_⟩
      exact found.2 ▸ found.1
  | missing => exact ends_pure ok trivial

theorem sound_exec (code : r.OfStmt σ s) (ok : r.MachineOk m) (lockstep : r.Lockstep m σ m.scope) :
    r.Sound m (parts.exec s) Anything :=
  (partsOk.exec s m ok fun _ => ⟨σ, code, lockstep⟩).imp fun _ _ _ _ => trivial

theorem PartsOk.execs (code : r.OfStmt σ s) (lockstep : r.Lockstep m σ m.scope) :
    (r.soundly m.scope).Execs parts parts m s s := by
  rintro u _ _ follows ⟨rfl, rfl, ok, inSight⟩
  have sound := sound_exec partsOk code ok (follows.lockstep lockstep)
  rw [Sound, inSight] at sound
  exact sound.follows inSight fun _ _ _ => rfl

omit partsOk in
theorem catchesBreak (chain : Frames) : (r.soundly chain).CatchesBreak := by
  refine Upkeep.catchesBreak ?_
  rintro w m m' ⟨rfl, -, inSight⟩ ⟨grows, fine, broke⟩
  exact ⟨m', ⟨broke.trans inSight.symm, grows, fine⟩, rfl, fine, broke⟩

theorem sound_execStep (code : r.OfStmt σ s) (ok : r.MachineOk m) (lockstep : r.Lockstep m σ m.scope) :
    r.Sound m (execStep parts s) fun _ m' => Binds s m' := by
  obtain ⟨place, mentions, functions, parsed⟩ := id code
  have pair : (r.soundly m.scope).Machines m m m := ⟨rfl, rfl, ok, rfl⟩
  have undeclared {x : Eval Unit} (follows : (r.soundly m.scope).Follows m m m x x Same)
      (none_ : declared? s = none) : r.Sound m x fun _ m' => Binds s m' :=
    ends_of_follows follows fun _ _ m' _ => binds_of_undeclared none_ m'
  cases s with
  | expression => exact undeclared (follows_expression _ pair (partsOk.evals mentions parsed lockstep)) rfl
  | print => exact undeclared (follows_print _ pair (partsOk.evals mentions parsed lockstep)) rfl
  | var name =>
    have unset := lockstep.declaring place name.lexeme false fun isSet => absurd isSet Bool.false_ne_true
    refine Ends.andThen (sound_evalOption partsOk mentions parsed.2 ok unset) fun value m₁ one fine => ?_
    have defined := quiet_define one.ok (one.lockstep lockstep) name.lexeme fun _ grows _ _ => fine.mono grows
    refine defined.sound.imp fun _ m₂ _ bound => ?_
    rintro _ ⟨⟩
    exact bound
  | block body =>
    let region : Region := ⟨body, .empty⟩
    have inner : r.OfStmts (.scope region :: σ) region.body := ⟨mentions, functions, parsed⟩
    have run := sound_scope partsOk inner ok lockstep Bindings.all_empty fun name set => by cases set
    have entered : r.Follows m { m with frames := m.frames.push .empty } :=
      ⟨rfl, m.grows_push _, ok.push Bindings.all_empty⟩
    have frame : r.Sound m (newFrame .empty) fun id m' =>
        id = m.frames.size ∧ m' = { m with frames := m.frames.push .empty } := ends_of_ok rfl entered ⟨rfl, rfl⟩
    refine frame.andThen fun id m₁ _ made => ?_
    obtain ⟨rfl, rfl⟩ := made
    exact run.imp fun _ m' _ _ => binds_of_undeclared rfl m'
  | ifElse test yes no =>
    cases no with
    | none =>
      simp only [stmtMentions, List.append_subset] at mentions
      have yes : r.OfStmt σ yes := ⟨place, mentions.2, functions, parsed.2.2⟩
      exact undeclared (follows_ifElse _ pair (partsOk.evals mentions.1 parsed.1 lockstep)
        (partsOk.execs yes lockstep) .none) rfl
    | some no =>
      simp only [stmtMentions, List.append_subset] at mentions
      obtain ⟨⟨test, first⟩, second⟩ := mentions
      simp only [Stmt.functions, List.append_subset] at functions
      have yes : r.OfStmt σ yes := ⟨place, first, functions.1, parsed.2.1.2⟩
      have no : r.OfStmt σ no := ⟨place, second, functions.2, parsed.2.2.2⟩
      exact undeclared (follows_ifElse _ pair (partsOk.evals test parsed.1 lockstep)
        (partsOk.execs yes lockstep) (.some (partsOk.execs no lockstep))) rfl
  | whileLoop _ body =>
    simp only [stmtMentions, List.append_subset] at mentions
    have inner : r.OfStmt σ body := ⟨place, mentions.2, functions, parsed.2.2⟩
    exact undeclared (follows_whileLoop _ pair (catchesBreak _) rfl
      (partsOk.evals mentions.1 parsed.1 lockstep) (partsOk.execs inner lockstep)) rfl
  | breakLoop => exact ends_throw ok rfl
  | returnValue =>
    refine Ends.andThen (sound_evalOption partsOk mentions parsed ok lockstep) fun result m₁ one fine => ?_
    exact ends_throw one.ok ⟨rfl, fine⟩
  | function decl =>
    cases decl with
    | mk name params body =>
    have made : r.Quiet m (makeClosure ⟨name, params, body⟩ false) fun f m' =>
        f = ⟨m.fresh, ⟨name, params, body⟩, m'.scope, false⟩ := ends_of_ok rfl (.number ok) rfl
    refine Ends.andThen made.sound fun f m₁ one made => ?_
    subst made
    simp only [Stmt.functions, FunDecl.functions, List.cons_subset] at functions
    have inner : r.OfFunction (declaringIn name.lexeme true σ) ⟨name, params, body⟩ :=
      ⟨functions.1, mentions, functions.2, parsed.2.2⟩
    -- The function is made before its name is bound, but its body sees the name.
    have fine (m' : Machine) (grows : m₁.Grows m') (scope : m'.scope = m₁.scope) (bound : Innermost m' name.lexeme) :
        r.ValueOk m' (.function ⟨m.fresh, ⟨name, params, body⟩, m₁.scope, false⟩) := by
      have around : r.Lockstep m' σ m₁.scope := (one.lockstep lockstep).mono grows
      have named := around.declaring place name.lexeme true fun _ id outer inSight => bound id outer (scope.trans inSight)
      exact ⟨⟨_, inner, named⟩, fun isInitializer => absurd isInitializer Bool.false_ne_true⟩
    have defined := quiet_define one.ok (one.lockstep lockstep) name.lexeme fine
    refine defined.sound.imp fun _ m₂ _ bound => ?_
    rintro _ ⟨⟩
    exact bound
  | classDef =>
    refine (quiet_declareClass ok code lockstep).sound.imp fun _ m' _ bound => ?_
    rintro _ ⟨⟩
    exact bound
  | traitDef =>
    refine (quiet_declareTrait ok code lockstep).sound.imp fun _ m' _ bound => ?_
    rintro _ ⟨⟩
    exact bound
  | missing => exact (quiet_crash ok rfl).sound

/-- What is known of the outcome of a node. -/
def Post (r : Run) : (point : Point) → point.Outcome → Machine → Prop
  | .eval _ => r.Yields
  | .exec s => fun _ m => Binds s m

theorem sound_layer {point : Point} (ok : r.MachineOk m) (fits : r.Fits m point) :
    r.Sound m (point.layer parts) (r.Post point) := by
  cases point with
  | eval =>
    obtain ⟨σ, code, lockstep⟩ := fits
    exact sound_evalStep partsOk code ok lockstep
  | exec =>
    obtain ⟨σ, code, lockstep⟩ := fits
    exact sound_execStep partsOk code ok lockstep

end

/-! ### Runs -/

/-- The machine is in order, and a node fits. -/
def Good (r : Run) (point : Point) (m : Machine) : Prop := r.MachineOk m ∧ r.Fits m point

/-- Every node that is run with a number of layers ends in order, if it is good. -/
def SoundWithin (r : Run) (n : Nat) : Prop :=
  ∀ point m, r.Reaches ⟨n, point, m⟩ → r.Good point m → r.Sound m (point.run n) (r.Post point)

/-- Parts that raise an alarm, a fault of a lookup, at a node that is run and is not good: if all good nodes end in
order, these parts are in order. -/
theorem partsOk_guarded {v : Visit} (reached : r.Reaches v) (within : r.SoundWithin n) :
    r.PartsOk n ((Parts.ofFuel n).crashing (v.guard n r.Good .unresolvedSuper .missingStatement)) := by
  refine ⟨fun e m ok fits => ?_, fun s m ok fits => ?_⟩
  · by_cases enters : v.Enters ⟨n, .eval e, m⟩
    · have here : r.Reaches ⟨n, .eval e, m⟩ := .inner reached enters
      have good : r.Good (.eval e) m := ⟨ok, fits here⟩
      have run := within (.eval e) m here good
      simp only [Sound, Ends, Parts.crashing, Visit.guard, if_pos enters, if_pos good]
      exact run
    · simp only [Sound, Ends, Parts.crashing, Visit.guard, if_neg enters]
      exact ⟨.of_frames rfl, ok, excludes_of_harmless rfl⟩
  · by_cases enters : v.Enters ⟨n, .exec s, m⟩
    · have here : r.Reaches ⟨n, .exec s, m⟩ := .inner reached enters
      have good : r.Good (.exec s) m := ⟨ok, fits here⟩
      have run := (within (.exec s) m here good).imp fun _ m' _ bound => (⟨bound, here⟩ : Binds s m' ∧ _)
      simp only [Sound, Ends, Parts.crashing, Visit.guard, if_pos enters, if_pos good]
      exact run
    · simp only [Sound, Ends, Parts.crashing, Visit.guard, if_neg enters]
      exact ⟨.of_frames rfl, ok, excludes_of_harmless rfl⟩

theorem good_layer {point : Point} (reached : r.Reaches ⟨n + 1, point, m⟩) (good : r.Good point m)
    (within : r.SoundWithin n) : (∀ point' m', Visit.Enters ⟨n + 1, point, m⟩ ⟨n, point', m'⟩ → r.Good point' m') ∧
      r.Sound m (point.run (n + 1)) (r.Post point) := by
  have sound := sound_layer (partsOk_guarded reached within) good.1 good.2
  have silent : ∀ m', point.layer ((Parts.ofFuel n).crashing
      (Visit.guard ⟨n + 1, point, m⟩ n r.Good .unresolvedSuper .missingStatement)) m ≠ .error (.crashed .unresolvedSuper) m' :=
    fun m' alarmed => nomatch (r.excludes_super).symm.trans (sound.of_error alarmed).2.2
  obtain ⟨all, same⟩ := Visit.layer_guarded ⟨n + 1, point, m⟩ rfl silent
  refine ⟨all, ?_⟩
  rw [Point.run_succ]
  simp only [Sound, Ends] at sound ⊢
  rwa [same] at sound

/-- By induction on the number of layers, every good node that is run ends in order. -/
theorem soundWithin (n : Nat) : r.SoundWithin n := by
  induction n with
  | zero =>
    intro point m _ good
    cases point <;> exact ends_throw good.1 trivial
  | succ _ ih => exact fun point m reached good => (good_layer reached good ih).2

theorem machineOk_start : r.MachineOk r.start := by
  refine ⟨fun id => ?_, fun id => ?_, fun id => ?_⟩
  · have globals : (Bindings.empty.putAll (builtinNames.map fun entry => (entry.1, .builtin entry.2))).All
        (r.ValueOk r.start) := by
      refine Bindings.all_empty.putAll fun entry member => ?_
      obtain ⟨_, _, rfl⟩ := List.mem_map.mp member
      trivial
    cases id with
    | zero => exact globals
    | succ => exact Bindings.all_empty
  · exact Bindings.all_empty
  · exact fun value member => absurd member List.not_mem_nil

theorem OfStmts.of_mem {body : List Stmt} (code : r.OfStmts [] body) (member : s ∈ body) : r.OfStmt [] s := by
  induction body with
  | nil => exact absurd member List.not_mem_nil
  | cons first _ ih =>
    rcases List.mem_cons.mp member with rfl | member
    · exact code.head fun _ isHead => nomatch isHead
    · exact ih (Scope.behindIn_nil first ▸ code.tail) member

/-- Statements of the program end in order after those before them, by induction on the statements. -/
theorem sound_statements {done todo : List Stmt} (split : r.program = done ++ todo ++ rest)
    (ran : runAll (execute r.fuel) done r.start = .ok () m) (ok : r.MachineOk m)
    (lockstep : r.Lockstep m [] m.scope) : r.Sound m (runAll (execute r.fuel) todo) Anything := by
  have code : r.OfStmts [] r.program := ⟨List.Subset.refl _, List.Subset.refl _, r.parsed⟩
  induction todo generalizing done m with
  | nil => exact ends_pure ok trivial
  | cons s more ih =>
    have after : r.program = done ++ s :: (more ++ rest) := by simp [split]
    have reached : r.Reaches ⟨r.fuel, .exec s, m⟩ := .statement after ran
    have good : r.Good (.exec s) m := ⟨ok, [], code.of_mem (by simp [split]), lockstep⟩
    refine Ends.andThen (soundWithin r.fuel _ m reached good).ran fun _ m₁ follows result => ?_
    have ran₁ : runAll (execute r.fuel) (done ++ [s]) r.start = .ok () m₁ := by
      rw [runAll_append]
      exact (bind_of_ok ran).trans (bind_of_ok result.2)
    exact ih (by simp [split]) ran₁ follows.ok (follows.lockstep lockstep)

theorem lockstep_start : r.Lockstep r.start [] r.start.scope := ⟨rfl, Nat.zero_lt_one⟩

theorem sound_program : r.Sound r.start (runAll (execute r.fuel) r.program) Anything := by
  have whole : r.program = [] ++ r.program ++ [] := by simp
  have ran : runAll (execute r.fuel) [] r.start = .ok () r.start := rfl
  exact sound_statements whole ran machineOk_start lockstep_start

/-- Whenever a node is run, the frames in sight are those of the scopes around it, by induction on how it is reached. -/
theorem good_of_reaches {v : Visit} (reached : r.Reaches v) : r.Good v.point v.machine := by
  induction reached with
  | @statement before rest s m split ran =>
    have code : r.OfStmts [] r.program := ⟨List.Subset.refl _, List.Subset.refl _, r.parsed⟩
    have first : r.program = [] ++ before ++ s :: rest := split
    have begun : runAll (execute r.fuel) [] r.start = .ok () r.start := rfl
    have follows := ((sound_statements first begun machineOk_start lockstep_start).of_ok ran).1
    exact ⟨follows.ok, [], code.of_mem (by simp [split]), follows.lockstep lockstep_start⟩
  | @inner v w reached enters good =>
    obtain ⟨_, point, machine⟩ := v
    obtain ⟨n, point', machine'⟩ := w
    obtain rfl := enters.1
    exact (good_layer reached good (soundWithin n)).1 point' machine' enters

theorem enters_first {part : Expr} {rest : Value → Parts → Eval Value}
    (shape : ∀ parts, evalStep parts e = (parts.eval part >>= fun value => rest value parts)) :
    Visit.Enters ⟨n + 1, .eval e, m⟩ ⟨n, .eval part, m⟩ := by
  refine ⟨rfl, fun fault => ⟨m, ?_⟩⟩
  show evalStep _ e m = _
  rw [shape]
  refine bind_of_error ?_
  simp [Parts.crashing, Visit.crash]

theorem first_ok {part : Expr} {rest : Value → Parts → Eval Value}
    (shape : ∀ parts, evalStep parts e = (parts.eval part >>= fun value => rest value parts))
    (reached : r.Reaches ⟨n + 1, .eval e, m⟩) {value : Value} {m' : Machine}
    (ends : evaluate n part m = .ok value m') : r.MachineOk m' ∧ r.ValueOk m' value := by
  have inner : r.Reaches ⟨n, .eval part, m⟩ := .inner reached (enters_first shape)
  obtain ⟨follows, fine⟩ := (soundWithin n (.eval part) m inner (good_of_reaches inner)).of_ok ends
  exact ⟨follows.ok, fine⟩

end LoxLang.Run
