import LoxLang.Proofs.PropertyReads
import LoxLang.Proofs.ReturnsCaught

/-!
What calling an initializer yields. The returns in an initializer have no value, so a call of it on an object yields the
object only if its body ends without a return.
-/

namespace LoxLang

open Eval

variable {m : Machine} {result : Value}

/-! ### Returns in the functions of a program -/

section
variable {inside : Scope.FunctionContext} {kind : Token → Scope.FunctionContext} {f : FunDecl}

theorem FunDecl.returnsFit_iff : f.ReturnsFit inside ↔ ∀ s ∈ f.body, s.ReturnsFit inside := by
  cases f
  exact Stmt.allReturnsFit_iff

theorem FunDecl.returnsFit_of_mem {fs : List FunDecl} (fit : FunDecl.AllReturnsFit kind fs)
    (member : f ∈ fs) : f.ReturnsFit (kind f.name) := by
  induction fs with
  | nil => cases member
  | cons _ _ ih =>
    rcases List.mem_cons.mp member with rfl | member
    · exact fit.1
    · exact ih fit.2 member

mutual

/-- The returns in a function that is declared in a statement are allowed in it, by induction on the statement. -/
theorem Stmt.ReturnsFit.function : ∀ (s : Stmt) {inside : Scope.FunctionContext}, s.ReturnsFit inside →
    f ∈ s.functions → ∃ own, f.ReturnsFit own
  | .block body, _, fits, member => Stmt.ReturnsFit.functionOfAll body fits member
  | .ifElse _ yes none, _, fits, member => Stmt.ReturnsFit.function yes fits member
  | .ifElse _ yes (some no), _, fits, member => by
    rcases List.mem_append.mp member with member | member
    · exact Stmt.ReturnsFit.function yes fits.1 member
    · exact Stmt.ReturnsFit.function no fits.2 member
  | .whileLoop _ body, _, fits, member => Stmt.ReturnsFit.function body fits member
  | .function decl, _, fits, member => FunDecl.ReturnsFit.function decl fits member
  | .classDef ⟨_, _, methods, classMethods, _⟩, _, fits, member => by
    rcases List.mem_append.mp member with member | member
    · exact FunDecl.ReturnsFit.functionOfAll methods fits.1 member
    · exact FunDecl.ReturnsFit.functionOfAll classMethods fits.2 member
  | .traitDef ⟨_, _, methods⟩, _, fits, member => FunDecl.ReturnsFit.functionOfAll methods fits member
  | .expression _, _, _, member | .print _, _, _, member | .var .., _, _, member | .breakLoop, _, _, member
  | .returnValue .., _, _, member | .missing, _, _, member => absurd member List.not_mem_nil
termination_by structural s => s

theorem Stmt.ReturnsFit.functionOfAll : ∀ (body : List Stmt) {inside : Scope.FunctionContext},
    Stmt.AllReturnsFit inside body → f ∈ Stmt.allFunctions body → ∃ own, f.ReturnsFit own
  | [], _, _, member => absurd member List.not_mem_nil
  | s :: rest, _, fits, member => by
    rcases List.mem_append.mp member with member | member
    · exact Stmt.ReturnsFit.function s fits.1 member
    · exact Stmt.ReturnsFit.functionOfAll rest fits.2 member
termination_by structural body => body

theorem FunDecl.ReturnsFit.function : ∀ (decl : FunDecl) {inside : Scope.FunctionContext},
    decl.ReturnsFit inside → f ∈ decl.functions → ∃ own, f.ReturnsFit own
  | ⟨_, _, body⟩, inside, fits, member => by
    rcases List.mem_cons.mp member with rfl | member
    · exact ⟨inside, fits⟩
    · exact Stmt.ReturnsFit.functionOfAll body fits member
termination_by structural decl => decl

theorem FunDecl.ReturnsFit.functionOfAll : ∀ (fs : List FunDecl) {kind : Token → Scope.FunctionContext},
    FunDecl.AllReturnsFit kind fs → f ∈ FunDecl.allFunctions fs → ∃ own, f.ReturnsFit own
  | [], _, _, member => absurd member List.not_mem_nil
  | g :: rest, _, fits, member => by
    rcases List.mem_append.mp member with member | member
    · exact FunDecl.ReturnsFit.function g fits.1 member
    · exact FunDecl.ReturnsFit.functionOfAll rest fits.2 member
termination_by structural fs => fs

end

end

section
variable {source : String} {program : List Stmt} {fuel : Nat} {clock dice : Readings}

/-- The returns in a statement that is run are allowed in the function it is written in. -/
theorem Accepted.returnsFit_of_reached (accepted : Accepted source program) {n : Nat} {s : Stmt}
    (reached : Reached program fuel (.start clock dice) ⟨n, .exec s, m⟩) : ∃ inside, s.ReturnsFit inside := by
  rcases reached.activation rfl with ⟨u, t, member, outer, leads⟩ | ⟨v, c, u, reached, calls, body, leads⟩
  · exact ⟨.none, (Stmt.allReturnsFit_iff.mp accepted.returnsFit t member).held (leads.holds outer rfl)⟩
  · have known := Run.mem_functions_of_calls (r := .ofAccepted accepted fuel clock dice) reached calls
    obtain ⟨own, fits⟩ := Stmt.ReturnsFit.functionOfAll program accepted.returnsFit known
    obtain ⟨t, member, outer⟩ := body.point_mem
    exact ⟨own, (FunDecl.returnsFit_iff.mp fits t member).held (leads.holds outer rfl)⟩

end

/-! ### Calls of initializers -/

theorem Visit.Ends.eq_nil {w : Visit} {keyword : Token} (ends : w.Ends (.returned result))
    (isReturn : w.point = .exec (.returnValue keyword none)) : result = .nil := by
  obtain ⟨n, fuel⟩ := ends.fuel_pos rfl
  obtain ⟨_, _, machine⟩ := w
  obtain ⟨m, ended⟩ := ends
  obtain rfl : _ = n + 1 := fuel
  obtain rfl : _ = Point.exec _ := isReturn
  cases ended
  rfl

/-- A direct call that yields something is the call of the function that the callee yields, and ends as that does. -/
theorem Visit.calls_of_ok {k : Nat} {callee : Expr} {paren : Token} {arguments : List Expr} {m₁ m₂ : Machine}
    {f : Closure} (evaluated : evaluate k callee m = .ok (.function f) m₁)
    (yields : evaluate (k + 1) (.call callee paren arguments) m = .ok result m₂) :
    ∃ args m', Visit.Calls ⟨k + 1, .eval (.call callee paren arguments), m⟩ ⟨k, f, args, m'⟩ ∧
      Call.run ⟨k, f, args, m'⟩ = .ok result m₂ := by
  have behind := (bind_of_ok evaluated).symm.trans yields
  cases given : evalAll (evaluate k) arguments m₁ with
  | error => cases (bind_of_error given).symm.trans behind
  | ok args m' =>
    have called := (bind_of_ok given).symm.trans behind
    simp only [checkedCall, Value.arity?] at called
    split at called
    · exact ⟨args, m', .function evaluated given ‹_›, called⟩
    · cases called

/-- How a call ends that yields something: without a return, or with one in the body of the function. -/
theorem Call.exits_of_ok {c : Call} (yields : c.run = .ok result m) :
    (∃ m', runAll (execute c.fuel) c.function.decl.body c.entry = .ok () m' ∧
      withoutReturn c.function { m' with scope := c.machine.scope } = .ok result m) ∨
      ∃ u w keyword value, c.Enters u ∧ u.Leads w ∧ w.point = .exec (.returnValue keyword value) ∧
        w.Ends (.returned result) := by
  rw [Call.run_eq] at yields
  cases ran : runAll (execute c.fuel) c.function.decl.body c.entry with
  | ok _ m' =>
    rw [ran] at yields
    exact .inl ⟨m', rfl, yields⟩
  | error ending m' =>
    rw [ran] at yields
    cases ending with
    | returned value =>
      obtain ⟨rfl, -⟩ := EStateM.Result.ok.inj yields
      obtain ⟨before, s, rest, m₁, split, ranBefore, ends⟩ := exists_of_runAll_error ran
      have returned : Visit.Ends ⟨c.fuel, .exec s, m₁⟩ (.returned value) := ⟨m', ends⟩
      obtain ⟨w, keyword, value, leads, isReturn, same⟩ := returned.leads_return
      exact .inr ⟨_, w, keyword, value, ⟨rfl, before, s, rest, split, rfl, ranBefore⟩, leads, isReturn, same⟩
    | broke | failed | crashed | outOfFuel => cases yields

/-- From the end of a node that is run in another one, the frames keep `this` and `super` to the end of that one. -/
theorem Run.keepsWords_inner {r : Run} {v w : Visit} (reached : r.Reaches v) (enters : v.Enters w) :
    ((w.point.run w.fuel).after w.machine).KeepsWords ((v.point.run v.fuel).after v.machine) := by
  obtain ⟨_, point, m⟩ := v
  obtain rfl : _ = w.fuel + 1 := enters.1
  have rescope (m : Machine) (scope : Frames) : m.KeepsWords { m with scope } := Machine.keepsWords_of_frames rfl
  have allowed (u : Visit) (reached : r.Reaches u) (name : String) (bound : u.point.bound? = some name) :
      IsPlainName name := isPlainName_of_bound reached bound
  refine (Reached.lasts_layer lasting_keepsWords rescope allowed reached fun u inner => ?_).2 w enters
  exact Reached.lasts_across lasting_keepsWords rescope allowed (reached.inner inner)

/-- What an initializer yields without a return: the object that it is bound to. -/
theorem Run.eq_self_of_withoutReturn {r : Run} {k : Nat} {callee : Expr} {paren : Token} {args : List Expr}
    {m₁ m₂ m₃ m₄ : Machine} {f bound : Closure} {self : Value}
    (reached : r.Reaches ⟨k + 1, .eval (.call callee paren args), m⟩)
    (evaluated : evaluate k callee m = .ok (.function bound) m₂) (boundTo : f.BoundTo self m₁ bound m₂)
    (yields : evaluate (k + 1) (.call callee paren args) m = .ok result m₄)
    (isInitializer : f.isInitializer = true) (otherwise : withoutReturn bound m₃ = .ok result m₄) :
    result = self := by
  have kept := Run.keepsWords_inner (w := ⟨k, .eval callee, m⟩) reached (Run.enters_first fun _ => rfl)
  simp only [Point.run, after, evaluated, yields] at kept
  have inside : m₁.frames.size < m₂.frames.size := by simp [boundTo.receiver]
  have here : (m₂.frame m₁.frames.size).get? thisName = some self := by
    rw [Machine.frame, boundTo.receiver]
    simp [Bindings.get?_put_self]
  have same := (kept.same _ inside thisName fun plain => plain.1 rfl).trans here
  rw [withoutReturn, if_pos (boundTo.kind.trans isInitializer), boundTo.frames] at otherwise
  obtain ⟨rfl, rfl⟩ := EStateM.Result.ok.inj otherwise
  rw [same]
  rfl

/-- What calling an initializer yields. In the run of an accepted program, let a class be declared with an initializer,
and let this be called directly, bound to an object as reading it from the object or with `super` does. If the call yields
something, then either the body has ended without a return, and it is the object, or a return without a value has been
carried out in the body, and it is nil. -/
theorem initializer_yields_object_or_nil {source : String} {program : List Stmt} (accepted : Accepted source program)
    (fuel : Nat) (clock dice : Readings) {n : Nat} {decl : ClassDecl} {m : Machine} (base : Option Class)
    (declared : Reached program fuel (.start clock dice) ⟨n + 1, .exec (.classDef decl), m⟩) {f : Closure}
    (method : f ∈ (m.classSite decl base).instanceFunctions decl) (isInit : f.decl.name.lexeme = initName)
    {k : Nat} {callee : Expr} {paren : Token} {arguments : List Expr} {m₀ m₁ m₂ : Machine} {self result : Value}
    (reached : Reached program fuel (.start clock dice) ⟨k + 1, .eval (.call callee paren arguments), m₀⟩)
    (binds : Eval.Binds f self m₁ (Eval.evaluate k callee m₀))
    (yields : Eval.evaluate (k + 1) (.call callee paren arguments) m₀ = .ok result m₂) :
    ∃ c, Visit.Calls ⟨k + 1, .eval (.call callee paren arguments), m₀⟩ c ∧ c.function.decl = f.decl ∧
      ((∃ m', Eval.runAll (Eval.execute c.fuel) c.function.decl.body c.entry = .ok () m') ∧ result = self ∨
      (∃ u w keyword, c.Enters u ∧ u.Leads w ∧ w.point = .exec (.returnValue keyword none) ∧ w.Ends (.returned .nil)) ∧
        result = .nil) := by
  have made := madeFrom_closuresFrom (fun method => method.name.lexeme = initName) (m.classSite decl base).scope
    ((m.classSite decl base).fresh + decl.classMethods.length) decl.methods
  have inBody : f.decl ∈ decl.methods := by
    rw [← made.decls]
    exact List.mem_map_of_mem method
  have isInitializer : f.isInitializer = true := (made.kind f method).trans (decide_eq_true isInit)
  obtain ⟨bound, m', boundTo, evaluated⟩ := binds
  obtain ⟨args, m₃, calls, ran⟩ := Visit.calls_of_ok evaluated yields
  refine ⟨_, calls, boundTo.decl, ?_⟩
  rcases Call.exits_of_ok ran with ⟨m₄, body, otherwise⟩ | ⟨u, w, keyword, value, enters, leads, isReturn, ends⟩
  · exact .inl ⟨⟨m₄, body⟩, Run.eq_self_of_withoutReturn (r := .ofAccepted accepted fuel clock dice) reached evaluated boundTo
      yields isInitializer otherwise⟩
  · refine .inr ?_
    have allowed : f.decl.ReturnsFit .initializer := by
      obtain ⟨inside, fits⟩ := accepted.returnsFit_of_reached declared
      cases decl with
      | mk =>
        have fit := FunDecl.returnsFit_of_mem fits.1 inBody
        rwa [Scope.methodContext, if_pos isInit] at fit
    obtain ⟨s, member, outer⟩ := enters.point_mem
    have fits : s.ReturnsFit .initializer := FunDecl.returnsFit_iff.mp (boundTo.decl ▸ allowed) s member
    have bare : value = none := by
      have noValue := (fits.held (leads.holds outer isReturn)).2
      cases value with
      | none => rfl
      | some => exact absurd rfl (noValue rfl)
    subst bare
    obtain rfl := ends.eq_nil isReturn
    exact ⟨⟨u, w, keyword, enters, leads, isReturn, ends⟩, rfl⟩

/-! A class whose initializer returns at once, and a direct call of it. -/

def hastySource : String := "class A\x7binit()\x7breturn;\x7d\x7dA().init();"

def hastyInitializer : FunDecl :=
  ⟨.named "init", some [], [.returnValue ⟨.kwReturn, "return", .nil, 1⟩ none]⟩

def hastyClass : ClassDecl := ⟨.named "A", none, [hastyInitializer], [], []⟩

def hastyObject : Expr := .call (.var (.named "A") none) ⟨.rightParen, ")", .nil, 1⟩ []

def hastyCallee : Expr := .get hastyObject hastyInitializer.name

def hastyCall : Expr := .call hastyCallee ⟨.rightParen, ")", .nil, 1⟩ []

def hastyProgram : List Stmt := [.classDef hastyClass, .expression hastyCall]

theorem accepted_hasty : Accepted hastySource hastyProgram :=
  .of_steps rfl rfl rfl (Grammar.derives_statements .oneLine hastyProgram rfl) rfl rfl

def hastyMachine : Machine := (execute 5 (.classDef hastyClass)).after (.start {} {})

def hastyMade : Machine := (evaluate 2 hastyObject).after hastyMachine

def hastyFunction : Closure := ⟨0, hastyInitializer, [0], true⟩

def hastyDeclared : Class :=
  ⟨1, "A", none, some ⟨0, "A metaclass", none, none, .empty⟩, ⟨[("init", .closure hastyFunction)]⟩⟩

def hastySelf : Value := .object ⟨2, some hastyDeclared⟩

theorem execute_hastyClass : execute 5 (.classDef hastyClass) (.start {} {}) = .ok () hastyMachine :=
  ok_of_run' (by decide +kernel)

theorem reached_hastyCall : Reached hastyProgram 5 (.start {} {}) ⟨4, .eval hastyCall, hastyMachine⟩ := by
  have split : hastyProgram = [.classDef hastyClass] ++ .expression hastyCall :: [] := rfl
  have ran : runAll (execute 5) [.classDef hastyClass] (.start {} {}) = .ok () hastyMachine :=
    bind_of_ok execute_hastyClass
  have call : Reached hastyProgram 5 (.start {} {}) ⟨5, .exec (.expression hastyCall), hastyMachine⟩ := .statement split ran
  exact call.inner Visit.enters_expression

theorem binds_hasty : Binds hastyFunction hastySelf hastyMade (evaluate 3 hastyCallee hastyMachine) := by
  have made : evaluate 2 hastyObject hastyMachine = .ok hastySelf hastyMade := rfl
  have finds : hastySelf.Finds hastyInitializer.name.lexeme hastyMade hastyFunction := ⟨_, hastyDeclared, rfl, rfl, rfl, rfl⟩
  exact reads_of_finds made finds

theorem yields_hasty : ∃ result m, evaluate 4 hastyCall hastyMachine = .ok result m ∧ result.isTruthy = false := by
  have falsy : ((evaluate 4 hastyCall).run' hastyMachine).map Value.isTruthy = some false := by decide +kernel
  rw [EStateM.run', Option.map_eq_some_iff] at falsy
  cases ends : evaluate 4 hastyCall hastyMachine with
  | error => simp [EStateM.run, ends] at falsy
  | ok result m => exact ⟨result, m, rfl, by simpa [EStateM.run, ends] using falsy⟩

/-- The call yields nil. -/
theorem initializer_yields_nil :
    Accepted hastySource hastyProgram ∧
      Eval.Binds hastyFunction hastySelf hastyMade (Eval.evaluate 3 hastyCallee hastyMachine) ∧
      ∃ m, Eval.evaluate 4 hastyCall hastyMachine = .ok .nil m := by
  have declared : Reached hastyProgram 5 (.start {} {}) ⟨5, .exec (.classDef hastyClass), .start {} {}⟩ :=
    .statement (show hastyProgram = [] ++ _ :: [_] from rfl) rfl
  obtain ⟨result, m, yields, falsy⟩ := yields_hasty
  obtain ⟨-, -, -, ⟨-, rfl⟩ | ⟨-, rfl⟩⟩ := initializer_yields_object_or_nil accepted_hasty 5 {} {} none declared
    (f := hastyFunction) (List.mem_singleton.mpr rfl) rfl reached_hastyCall binds_hasty yields
  · cases falsy
  · exact ⟨accepted_hasty, binds_hasty, m, yields⟩

end LoxLang
