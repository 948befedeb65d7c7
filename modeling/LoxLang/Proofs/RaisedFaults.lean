import LoxLang.Proofs.Crashes
import LoxLang.Proofs.StrayBreaks

/-!
Where a fault comes from. A node crashes by itself only in some ways, each said of what its parts yield; else a node that
it runs crashes, and no crash is ever caught. So a run crashes exactly if a node that is run raises a fault by itself.
-/

namespace LoxLang

open Eval

variable {args : List Value} {m' m : Machine}

instance : Nontrivial Fault := ⟨.noClass, .missingStatement, by simp⟩

/-- A node that is given evaluators for its parts ends with a fault of its own. -/
inductive Raises (parts : Parts) : Point → Machine → Fault → Prop
  /-- A text is repeated as often as a number says that is no count. -/
  | product {left right : Expr} {op : Token} {m m₁ m₂ : Machine} {text : String} {x : Float} {fault : Fault}
    (isStar : op.kind = .star) (first : parts.eval left m = .ok (.string text) m₁)
    (second : parts.eval right m₁ = .ok (.number x) m₂) (noCount : NoCount x fault) :
    Raises parts (.eval (.binary left op right)) m fault
  /-- A name is kept with a depth that is larger than the number of frames in sight. -/
  | read {name : Token} {d : Nat} {m : Machine} (deep : m.scope.length ≤ d) :
    Raises parts (.eval (.var name (some d))) m .scopeTooDeep
  | this {keyword : Token} {d : Nat} {m : Machine} (deep : m.scope.length ≤ d) :
    Raises parts (.eval (.this keyword (some d))) m .scopeTooDeep
  | assign {name : Token} {value : Expr} {d : Nat} {m m₁ : Machine} {a : Value}
    (assigned : parts.eval value m = .ok a m₁) (deep : m₁.scope.length ≤ d) :
    Raises parts (.eval (.assign name value (some d))) m .scopeTooDeep
  | super {keyword method : Token} {d : Nat} {m : Machine} {fault : Fault} (faulty : SuperFault m method d fault) :
    Raises parts (.eval (.super keyword method (some d))) m fault
  | builtin {callee : Expr} {paren : Token} {arguments : List Expr} {m m₁ m₂ : Machine} {b : Builtin}
    {args : List Value} {fault : Fault} (called : parts.eval callee m = .ok (.builtin b) m₁)
    (given : evalAll parts.eval arguments m₁ = .ok args m₂) (enough : args.length = b.arity)
    (faults : b.Faults args fault) : Raises parts (.eval (.call callee paren arguments)) m fault
  /-- The index of an element is infinite. -/
  | element {callee : Expr} {paren : Token} {arguments : List Expr} {m m₁ m₂ : Machine} {id array : Nat}
    {access : ArrayAccess} {args : List Value} {index : Value} {x : Float} {negative : Bool}
    (called : parts.eval callee m = .ok (.arrayFunction id access array) m₁)
    (given : evalAll parts.eval arguments m₁ = .ok args m₂) (enough : args.length = access.arity)
    (first : args.head? = some index) (converts : index.Converts x)
    (infinite : Number.parts x = .infinite negative) :
    Raises parts (.eval (.call callee paren arguments)) m .infinityToInteger
  | superclass {decl : ClassDecl} {ref : NameRef} {m : Machine} {fault : Fault}
    (isExtended : decl.superclass = some ref) (faulty : SuperclassFault m ref fault) :
    Raises parts (.exec (.classDef decl)) m fault
  | classTraits {decl : ClassDecl} {base : Option Class} {m : Machine} {fault : Fault}
    (extended : readSuperclass decl.superclass m = .ok base m)
    (faulty : TraitsFault (m.classSite decl base) [] decl.traits fault) : Raises parts (.exec (.classDef decl)) m fault
  | traits {decl : TraitDecl} {m : Machine} {fault : Fault}
    (faulty : TraitsFault (m.defining decl.name.lexeme .nil) [] decl.traits fault) :
    Raises parts (.exec (.traitDef decl)) m fault
  /-- A trait has a method that it includes already, or has it twice. -/
  | traitMethods {decl : TraitDecl} {m : Machine} {included : List Trait} {name : String}
    (reads : ReadTraits (m.defining decl.name.lexeme .nil) decl.traits included)
    (first : FirstRepeat (included.flatMap (·.methods.names)) (decl.methods.map (·.name.lexeme)) name) :
    Raises parts (.exec (.traitDef decl)) m (.declaration (.declaredByTrait name))

/-- A node ends with a fault of its own that only a tree or a machine can lead to that no run comes to: a tree that was
not resolved or not parsed, a class with a built-in function as a method, an object without a class, the power as a value,
an initializer without an object. -/
inductive Derails (parts : Parts) : Point → Machine → Fault → Prop
  | unresolved {keyword method : Token} {m : Machine} :
    Derails parts (.eval (.super keyword method none)) m .unresolvedSuper
  | superMethod {keyword method : Token} {d : Nat} {m : Machine} {id : FrameId} {c : Class} {b : Builtin}
    (place : m.scope[d]? = some id) (found : (m.frame id).get? superName = some (.classObject c))
    (isBuiltin : c.findMethod? method.lexeme = some (.builtin b)) :
    Derails parts (.eval (.super keyword method (some d))) m (.cannotBind (Value.builtin b).typeName)
  | initializer {callee : Expr} {paren : Token} {arguments : List Expr} {m m₁ m₂ : Machine} {c : Class}
    {args : List Value} {b : Builtin} (called : parts.eval callee m = .ok (.classObject c) m₁)
    (given : evalAll parts.eval arguments m₁ = .ok args m₂) (enough : args.length = c.arity)
    (isBuiltin : c.findMethod? initName = some (.builtin b)) :
    Derails parts (.eval (.call callee paren arguments)) m (.cannotBind (Value.builtin b).typeName)
  | power {callee : Expr} {paren : Token} {arguments : List Expr} {m m₁ m₂ : Machine} {args : List Value}
    {fault : Fault} (called : parts.eval callee m = .ok (.builtin .pow) m₁)
    (given : evalAll parts.eval arguments m₁ = .ok args m₂) (enough : args.length = Builtin.arity .pow)
    (faults : Crashes fault (callBuiltin .pow args) m₂) :
    Derails parts (.eval (.call callee paren arguments)) m fault
  | call {callee : Expr} {paren : Token} {arguments : List Expr} {m m₁ m₂ m₃ : Machine} {f : Closure}
    {args : List Value} (called : parts.eval callee m = .ok (.function f) m₁)
    (given : evalAll parts.eval arguments m₁ = .ok args m₂) (enough : args.length = f.decl.arity)
    (ran : runAll parts.exec f.decl.body (Call.entry ⟨parts.fuel, f, args, m₂⟩) = .ok () m₃)
    (isInitializer : f.isInitializer = true) (noObject : f.frames = []) :
    Derails parts (.eval (.call callee paren arguments)) m .scopeTooDeep
  | getter {object : Expr} {name : Token} {m m₁ m₂ m₃ : Machine} {value : Value} {f : Closure}
    (evaluated : parts.eval object m = .ok value m₁) (read : readProperty value name m₁ = .ok (.function f) m₂)
    (isGetter : f.decl.isGetter = true)
    (ran : runAll parts.exec f.decl.body (Call.entry ⟨parts.fuel, f, [], m₂⟩) = .ok () m₃)
    (isInitializer : f.isInitializer = true) (noObject : f.frames = []) :
    Derails parts (.eval (.get object name)) m .scopeTooDeep
  | print {value : Expr} {m m₁ : Machine} {a : Value} {fault : Fault} (evaluated : parts.eval value m = .ok a m₁)
    (noText : m₁.display m₁.displayBound a = .error (.crashed fault)) : Derails parts (.exec (.print value)) m fault
  | missing {m : Machine} : Derails parts (.exec .missing) m .missingStatement

/-! ### One layer of evaluation -/

namespace Eval

variable {α : Type} {fault : Fault} {m : Machine}

theorem crashes_callClosure {run : Runner} {f : Closure} (fuel : Nat) : Crashes fault (callClosure run f args) m ↔
      Crashes fault (runAll run f.decl.body) (Call.entry ⟨fuel, f, args, m⟩) ∨
      (∃ m', runAll run f.decl.body (Call.entry ⟨fuel, f, args, m⟩) = .ok () m') ∧ f.isInitializer = true ∧
        f.frames = [] ∧ fault = .scopeTooDeep := by
  rw [callClosure, crashes_bind_of_ok (show newFrame _ m = .ok m.frames.size _ from rfl), crashes_catchReturn,
    crashes_within]
  refine or_congr_right ?_
  simp only [crashes_withoutReturn, within, Call.entry]
  cases runAll run f.decl.body _ <;> simp

theorem Crashes.after {β : Type} {x : Eval α} {f : α → Eval β} (crashed : Crashes fault (x >>= f) m)
    (calm : ¬ Crashes fault x m) : ∃ a m', x m = .ok a m' ∧ Crashes fault (f a) m' :=
  (crashes_bind.mp crashed).resolve_left calm

theorem crashes_discard {x : Eval α} : Crashes fault (discard x) m ↔ Crashes fault x m := crashes_map (f := fun _ => ())

theorem crashes_catchBreak {body : Eval Unit} : Crashes fault (catchBreak body) m ↔ Crashes fault body m := by
  simp only [Crashes, catchBreak]
  cases ends : body m with
  | ok => simp
  | error ending => cases ending <;> simp

section
variable {parts : Parts} (evals : ∀ e m, ¬ Crashes fault (parts.eval e) m)
  (execs : ∀ s m, ¬ Crashes fault (parts.exec s) m)

include evals in
theorem not_crashes_evalAll (es : List Expr) (m : Machine) : ¬ Crashes fault (evalAll parts.eval es) m := by
  induction es generalizing m with
  | nil => exact not_crashes_pure _
  | cons _ _ ih => simp [evalAll, crashes_bind, evals, ih]

include evals in
theorem not_crashes_evalOption (e : Option Expr) (m : Machine) : ¬ Crashes fault (evalOption parts.eval e) m := by
  cases e with
  | none => exact not_crashes_pure _
  | some e => exact evals e m

include execs in
theorem not_crashes_runAll (body : List Stmt) (m : Machine) : ¬ Crashes fault (runAll parts.exec body) m := by
  induction body generalizing m with
  | nil => exact not_crashes_pure _
  | cons _ _ ih => simp [runAll, crashes_bind, execs, ih]

theorem not_crashes_repeatWhile {test : Eval Bool} {body : Eval Unit} (tests : ∀ m, ¬ Crashes fault test m)
    (bodies : ∀ m, ¬ Crashes fault body m) (n : Nat) (m : Machine) : ¬ Crashes fault (repeatWhile test body n) m := by
  induction n generalizing m with
  | zero => rintro ⟨m', ⟨⟩⟩
  | succ _ ih =>
    rw [repeatWhile_succ, crashes_bind]
    rintro (crashed | ⟨goesOn, m₁, -, crashed⟩)
    · exact tests m crashed
    · cases goesOn with
      | false => exact not_crashes_pure _ crashed
      | true =>
        rw [if_pos rfl, crashes_bind, crashes_catchBreak] at crashed
        rcases crashed with crashed | ⟨again, m₂, -, crashed⟩
        · exact bodies m₁ crashed
        · cases again with
          | false => exact not_crashes_pure _ crashed
          | true => exact ih m₂ crashed

include execs in
/-- Only a built-in function as an initializer makes the call of a class crash. -/
theorem builtin_of_instantiate {c : Class} (crashed : Crashes fault (instantiate parts.exec c args) m) :
    ∃ b, c.findMethod? initName = some (.builtin b) ∧ fault = .cannotBind (Value.builtin b).typeName := by
  rw [instantiate, crashes_bind_of_ok (show newObject m = .ok m.fields.size _ from rfl)] at crashed
  cases found : c.findMethod? initName with
  | none => simp [found] at crashed
  | some method =>
    simp only [found] at crashed
    rw [crashes_bind, crashes_discard] at crashed
    replace crashed := crashed.resolve_right (by simp)
    cases method with
    | builtin b => exact ⟨b, rfl, (crashes_crash.mp crashed).symm⟩
    | closure f =>
      rw [callMethod, crashes_bind_of_ok (show bindThis f _ _ = .ok _ _ from rfl)] at crashed
      rcases (crashes_callClosure parts.fuel).mp crashed with inside | ⟨-, -, noObject, -⟩
      · exact absurd inside (not_crashes_runAll execs _ _)
      · cases noObject

include evals execs

theorem raises_of_checkedCall {callee : Expr} {paren : Token} {arguments : List Expr} {f : Value} {m₁ m₂ : Machine}
    (called : parts.eval callee m = .ok f m₁) (given : evalAll parts.eval arguments m₁ = .ok args m₂)
    (crashed : Crashes fault (checkedCall parts.exec paren f args) m₂) :
    Raises parts (.eval (.call callee paren arguments)) m fault ∨
      Derails parts (.eval (.call callee paren arguments)) m fault := by
  unfold checkedCall at crashed
  split at crashed
  · simp at crashed
  · rename_i arity needed
    split at crashed
    case isFalse => simp at crashed
    case isTrue enough =>
      cases f with
      | function =>
        obtain rfl := Option.some.inj needed
        rcases (crashes_callClosure parts.fuel).mp crashed with inside | ⟨⟨m₃, ran⟩, isInitializer, noObject, rfl⟩
        · exact absurd inside (not_crashes_runAll execs _ _)
        · exact .inr (.call called given enough ran isInitializer noObject)
      | classObject =>
        obtain rfl := Option.some.inj needed
        obtain ⟨b, isBuiltin, rfl⟩ := builtin_of_instantiate execs crashed
        exact .inr (.initializer called given enough isBuiltin)
      | builtin b =>
        obtain rfl := Option.some.inj needed
        by_cases isPower : b = .pow
        · subst isPower
          exact .inr (.power called given enough crashed)
        · exact .inl (.builtin called given enough ((crashes_callBuiltin enough isPower).mp crashed))
      | arrayFunction =>
        obtain rfl := Option.some.inj needed
        obtain ⟨rfl, index, x, negative, first, converts, infinite⟩ := (crashes_callArrayFunction enough).mp crashed
        exact .inl (.element called given enough first converts infinite)
      | _ => cases needed

theorem raises_of_evalStep {e : Expr} (crashed : Crashes fault (evalStep parts e) m) :
    Raises parts (.eval e) m fault ∨ Derails parts (.eval e) m fault := by
  cases e with
  | binary left _ right =>
    obtain ⟨a, m₁, first, crashed⟩ := crashed.after (evals left m)
    obtain ⟨b, m₂, second, crashed⟩ := crashed.after (evals right m₁)
    rw [crashes_ofExcept, applyBinary_crashed_iff] at crashed
    obtain ⟨isStar, text, x, rfl, rfl, noCount⟩ := crashed
    exact .inl (.product isStar first second noCount)
  | logical left _ right =>
    obtain ⟨a, m₁, first, crashed⟩ := crashed.after (evals left m)
    split at crashed
    · simp at crashed
    · exact absurd crashed (evals right m₁)
  | unary _ operand =>
    obtain ⟨a, m₁, first, crashed⟩ := crashed.after (evals operand m)
    exact absurd (crashes_ofExcept.mp crashed) applyUnary_not_crashed
  | conditional test yes no =>
    obtain ⟨a, m₁, first, crashed⟩ := crashed.after (evals test m)
    split at crashed
    · exact absurd crashed (evals yes m₁)
    · exact absurd crashed (evals no m₁)
  | grouping inner => exact absurd crashed (evals inner m)
  | literal => exact absurd crashed (not_crashes_pure _)
  | var =>
    obtain ⟨rfl, d, rfl, deep⟩ := crashes_readName.mp crashed
    exact .inl (.read deep)
  | assign _ value =>
    obtain ⟨a, m₁, assigned, crashed⟩ := crashed.after (evals value m)
    rw [crashes_bind, crashes_assignName] at crashed
    obtain ⟨rfl, d, rfl, deep⟩ := crashed.resolve_right (by simp)
    exact .inl (.assign assigned deep)
  | call callee _ arguments =>
    obtain ⟨f, m₁, called, crashed⟩ := crashed.after (evals callee m)
    obtain ⟨args, m₂, given, crashed⟩ := crashed.after (not_crashes_evalAll evals arguments m₁)
    exact raises_of_checkedCall evals execs called given crashed
  | get object name =>
    obtain ⟨value, m₁, evaluated, crashed⟩ := crashed.after (evals object m)
    obtain ⟨found, m₂, read, crashed⟩ := crashed.after (not_crashes_readProperty value name)
    cases found with
    | function f =>
      simp only at crashed
      split at crashed
      · rename_i isGetter
        rcases (crashes_callClosure parts.fuel).mp crashed with inside | ⟨⟨m₃, ran⟩, isInitializer, noObject, rfl⟩
        · exact absurd inside (not_crashes_runAll execs _ _)
        · exact .inr (.getter evaluated read isGetter ran isInitializer noObject)
      · exact absurd crashed (not_crashes_pure _)
    | _ => exact absurd crashed (not_crashes_pure _)
  | set object name value =>
    obtain ⟨target, m₁, -, crashed⟩ := crashed.after (evals object m)
    obtain ⟨-, m₂, -, crashed⟩ := crashed.after (not_crashes_checkHasFields target name)
    obtain ⟨a, m₃, -, crashed⟩ := crashed.after (evals value m₂)
    simp at crashed
  | this =>
    obtain ⟨rfl, d, rfl, deep⟩ := crashes_readName.mp crashed
    exact .inl (.this deep)
  | super _ _ depth =>
    cases depth with
    | none =>
      obtain rfl := crashes_crash.mp crashed
      exact .inr .unresolved
    | some =>
      rcases crashes_readSuper.mp crashed with faulty | ⟨id, c, b, place, found, isBuiltin, rfl⟩
      · exact .inl (.super faulty)
      · exact .inr (.superMethod place found isBuiltin)
  | missing => exact absurd crashed (not_crashes_pure _)

theorem raises_of_execStep {s : Stmt} (crashed : Crashes fault (execStep parts s) m) :
    Raises parts (.exec s) m fault ∨ Derails parts (.exec s) m fault := by
  cases s with
  | expression value => exact absurd (crashes_discard.mp crashed) (evals value m)
  | print value =>
    obtain ⟨a, m₁, evaluated, crashed⟩ := crashed.after (evals value m)
    rw [crashes_bind, crashes_text] at crashed
    exact .inr (.print evaluated (crashed.resolve_right (by simp [printLine])))
  | var _ init =>
    obtain ⟨a, m₁, -, crashed⟩ := crashed.after (not_crashes_evalOption evals init m)
    exact absurd crashed (not_crashes_define _ _)
  | block =>
    rw [execStep, crashes_bind_of_ok (show newFrame _ m = .ok _ _ from rfl), crashes_scope, crashes_within] at crashed
    exact absurd crashed (not_crashes_runAll execs _ _)
  | ifElse test yes no =>
    obtain ⟨a, m₁, -, crashed⟩ := crashed.after (evals test m)
    split at crashed
    · exact absurd crashed (execs yes m₁)
    · cases no with
      | none => exact absurd crashed (not_crashes_pure _)
      | some no => exact absurd crashed (execs no m₁)
  | whileLoop _ body =>
    refine absurd crashed (not_crashes_repeatWhile (fun m => ?_) (execs body) _ _)
    simp [evals]
  | breakLoop => obtain ⟨m', ⟨⟩⟩ := crashed
  | returnValue _ value =>
    obtain ⟨a, m₁, -, m', ⟨⟩⟩ := crashed.after (not_crashes_evalOption evals value m)
  | function decl =>
    rw [execStep, crashes_bind_of_ok (show makeClosure decl false m = .ok _ _ from rfl)] at crashed
    exact absurd crashed (not_crashes_define _ _)
  | classDef =>
    rcases crashes_declareClass.mp crashed with ⟨ref, isExtended, faulty⟩ | ⟨base, extended, faulty⟩
    · exact .inl (.superclass isExtended faulty)
    · exact .inl (.classTraits extended faulty)
  | traitDef =>
    rcases crashes_declareTrait.mp crashed with faulty | ⟨included, name, reads, first, rfl⟩
    · exact .inl (.traits faulty)
    · exact .inl (.traitMethods reads first)
  | missing =>
    obtain rfl := crashes_crash.mp crashed
    exact .inr .missing

theorem raises_of_layer {point : Point} (crashed : Crashes fault (point.layer parts) m) :
    Raises parts point m fault ∨ Derails parts point m fault := by
  cases point with
  | eval => exact raises_of_evalStep evals execs crashed
  | exec => exact raises_of_execStep evals execs crashed

end

theorem crashes_call {callee : Expr} {paren : Token} {arguments : List Expr} {f : Value} {arity : Nat} {m₁ m₂ : Machine}
    (called : parts.eval callee m = .ok f m₁) (given : evalAll parts.eval arguments m₁ = .ok args m₂)
    (needed : f.arity? = some arity) (enough : args.length = arity) :
    Crashes fault (evalStep parts (.call callee paren arguments)) m ↔ Crashes fault (callValue parts.exec f args) m₂ := by
  rw [evalStep, crashes_bind_of_ok called, crashes_bind_of_ok given]
  simp only [checkedCall, needed, if_pos enough]

end Eval

variable {parts : Parts} {point : Point} {m : Machine} {fault : Fault}

theorem Raises.crashes (raises : Raises parts point m fault) : Crashes fault (point.layer parts) m := by
  cases raises with
  | product isStar first second noCount =>
    rw [Point.layer, evalStep, crashes_bind_of_ok first, crashes_bind_of_ok second,
      crashes_ofExcept, applyBinary_crashed_iff]
    exact ⟨isStar, _, _, rfl, rfl, noCount⟩
  | read deep => exact crashes_readName.mpr ⟨rfl, _, rfl, deep⟩
  | this deep => exact crashes_readName.mpr ⟨rfl, _, rfl, deep⟩
  | assign assigned deep =>
    rw [Point.layer, evalStep, crashes_bind_of_ok assigned, crashes_bind, crashes_assignName]
    exact .inl ⟨rfl, _, rfl, deep⟩
  | super faulty => exact crashes_readSuper.mpr (.inl faulty)
  | builtin called given enough faults =>
    exact (crashes_call called given rfl enough).mpr ((crashes_callBuiltin enough faults.ne_pow).mpr faults)
  | element called given enough first converts infinite =>
    rw [Point.layer, crashes_call called given rfl enough]
    exact (crashes_callArrayFunction enough).mpr ⟨rfl, _, _, _, first, converts, infinite⟩
  | superclass isExtended faulty => exact crashes_declareClass.mpr (.inl ⟨_, isExtended, faulty⟩)
  | classTraits extended faulty => exact crashes_declareClass.mpr (.inr ⟨_, extended, faulty⟩)
  | traits faulty => exact crashes_declareTrait.mpr (.inl faulty)
  | traitMethods reads first => exact crashes_declareTrait.mpr (.inr ⟨_, _, reads, first, rfl⟩)

theorem Derails.crashes (derails : Derails parts point m fault) : Crashes fault (point.layer parts) m := by
  cases derails with
  | unresolved => exact ⟨m, rfl⟩
  | superMethod place found isBuiltin =>
    exact crashes_readSuper.mpr (.inr ⟨_, _, _, place, found, isBuiltin, rfl⟩)
  | initializer called given enough isBuiltin =>
    rw [Point.layer, crashes_call called given rfl enough, callValue, instantiate,
      crashes_bind_of_ok (show newObject _ = .ok _ _ from rfl)]
    simp only [isBuiltin]
    rw [crashes_bind, crashes_discard]
    exact .inl (crashes_crash.mpr rfl)
  | power called given enough faults =>
    exact (crashes_call called given rfl enough).mpr faults
  | call called given enough ran isInitializer noObject =>
    rw [Point.layer, crashes_call called given rfl enough]
    exact (crashes_callClosure parts.fuel).mpr (.inr ⟨⟨_, ran⟩, isInitializer, noObject, rfl⟩)
  | getter evaluated read isGetter ran isInitializer noObject =>
    rw [Point.layer, evalStep, crashes_bind_of_ok evaluated, getProperty, crashes_bind_of_ok read]
    simp only [if_pos isGetter]
    exact (crashes_callClosure parts.fuel).mpr (.inr ⟨⟨_, ran⟩, isInitializer, noObject, rfl⟩)
  | print evaluated noText =>
    rw [Point.layer, execStep, crashes_bind_of_ok evaluated, crashes_bind, crashes_text]
    exact .inl noText
  | missing => exact ⟨m, rfl⟩

/-! ### Where a crash comes from -/

theorem Eval.exists_of_bind_ok {α β : Type} {x : Eval α} {f : α → Eval β} {b : β} (ends : (x >>= f) m = .ok b m') :
    ∃ a m₁, x m = .ok a m₁ ∧ f a m₁ = .ok b m' := by
  cases first : x m with
  | ok a m₁ => exact ⟨a, m₁, rfl, (bind_of_ok first).symm.trans ends⟩
  | error => cases (bind_of_error first).symm.trans ends

/-- What some parts yield, others yield as well. -/
structure Parts.Extends (p q : Parts) : Prop where
  fuel : p.fuel = q.fuel
  eval : ∀ {e m a m'}, p.eval e m = .ok a m' → q.eval e m = .ok a m'
  exec : ∀ {s m u m'}, p.exec s m = .ok u m' → q.exec s m = .ok u m'

theorem Parts.extends_crashing (parts : Parts) (crash : Point → Machine → Option Fault) :
    (parts.crashing crash).Extends parts := by
  refine ⟨rfl, ?_, ?_⟩
  all_goals
    intro node m a m' ran
    simp only [Parts.crashing] at ran
    split at ran
    · exact ran
    · cases ran

section
variable {p q : Parts} (bigger : p.Extends q)
include bigger

theorem Parts.Extends.evalAll {es : List Expr} (ran : evalAll p.eval es m = .ok args m') :
    evalAll q.eval es m = .ok args m' := by
  induction es generalizing args m m' with
  | nil => exact ran
  | cons _ _ ih =>
    obtain ⟨a, m₁, first, ran⟩ := exists_of_bind_ok ran
    obtain ⟨values, m₂, others, ran⟩ := exists_of_bind_ok ran
    rw [evalAll, bind_of_ok (bigger.eval first), bind_of_ok (ih others)]
    exact ran

theorem Parts.Extends.runAll {body : List Stmt} (ran : runAll p.exec body m = .ok () m') :
    runAll q.exec body m = .ok () m' := by
  induction body generalizing m with
  | nil => exact ran
  | cons _ _ ih =>
    obtain ⟨u, m₁, first, ran⟩ := exists_of_bind_ok ran
    rw [runAll, bind_of_ok (bigger.exec first)]
    exact ih ran

theorem Raises.extend (raises : Raises p point m fault) : Raises q point m fault := by
  cases raises with
  | product isStar first second noCount =>
    exact .product isStar (bigger.eval first) (bigger.eval second) noCount
  | read deep => exact .read deep
  | this deep => exact .this deep
  | assign assigned deep => exact .assign (bigger.eval assigned) deep
  | super faulty => exact .super faulty
  | builtin called given enough faults =>
    exact .builtin (bigger.eval called) (bigger.evalAll given) enough faults
  | element called given enough first converts infinite =>
    exact .element (bigger.eval called) (bigger.evalAll given) enough first converts infinite
  | superclass isExtended faulty => exact .superclass isExtended faulty
  | classTraits extended faulty => exact .classTraits extended faulty
  | traits faulty => exact .traits faulty
  | traitMethods reads first => exact .traitMethods reads first

theorem Derails.extend (derails : Derails p point m fault) : Derails q point m fault := by
  cases derails with
  | unresolved => exact .unresolved
  | superMethod place found isBuiltin => exact .superMethod place found isBuiltin
  | initializer called given enough isBuiltin =>
    exact .initializer (bigger.eval called) (bigger.evalAll given) enough isBuiltin
  | power called given enough faults =>
    exact .power (bigger.eval called) (bigger.evalAll given) enough faults
  | call called given enough ran isInitializer noObject =>
    exact .call (bigger.eval called) (bigger.evalAll given) enough (bigger.runAll ran) isInitializer noObject
  | getter evaluated read isGetter ran isInitializer noObject =>
    exact .getter (bigger.eval evaluated) read isGetter (bigger.runAll ran) isInitializer noObject
  | print evaluated noText => exact .print (bigger.eval evaluated) noText
  | missing => exact .missing

end

namespace Visit

variable {v w : Visit}

/-- A node that is run ends with a fault of its own. -/
def Raises (v : Visit) (fault : Fault) : Prop :=
  ∃ n, v.fuel = n + 1 ∧ LoxLang.Raises (.ofFuel n) v.point v.machine fault

/-- A node that is run ends with a fault of its own that no run should come to. -/
def Derails (v : Visit) (fault : Fault) : Prop :=
  ∃ n, v.fuel = n + 1 ∧ LoxLang.Derails (.ofFuel n) v.point v.machine fault

theorem ends_of_crashes {n : Nat} (fuel : v.fuel = n + 1)
    (crashes : Crashes fault (v.point.layer (.ofFuel n)) v.machine) : v.Ends (.crashed fault) := by
  rw [← Point.run_succ, ← fuel] at crashes
  exact crashes

theorem Raises.ends (raises : v.Raises fault) : v.Ends (.crashed fault) := by
  obtain ⟨n, fuel, raises⟩ := raises
  exact ends_of_crashes fuel raises.crashes

theorem Derails.ends (derails : v.Derails fault) : v.Ends (.crashed fault) := by
  obtain ⟨n, fuel, derails⟩ := derails
  exact ends_of_crashes fuel derails.crashes

open Classical in
/-- Another crash at the nodes that crash. -/
noncomputable def crashElse (n : Nat) (fault other : Fault) (point : Point) (machine : Machine) : Option Fault :=
  if Ends ⟨n, point, machine⟩ (.crashed fault) then some other else none

theorem not_crashes_crashElse {n : Nat} {fault other : Fault} (apart : other ≠ fault) :
    (∀ e m, ¬ Crashes fault (((Parts.ofFuel n).crashing (crashElse n fault other)).eval e) m) ∧
      ∀ s m, ¬ Crashes fault (((Parts.ofFuel n).crashing (crashElse n fault other)).exec s) m := by
  constructor
  all_goals
    rintro node m ⟨m', crashed⟩
    simp only [Parts.crashing, crashElse] at crashed
    split_ifs at crashed with ends
    · cases crashed
      exact apart rfl
    · exact ends ⟨m', crashed⟩

/-- A node that crashes does so by itself, or runs a node that does. -/
theorem Ends.crashed (ends : v.Ends (.crashed fault)) :
    v.Raises fault ∨ v.Derails fault ∨ ∃ w, v.Enters w ∧ w.Ends (.crashed fault) := by
  obtain ⟨fuel, point, machine⟩ := v
  obtain ⟨m', ended⟩ := ends
  cases fuel with
  | zero => cases point <;> cases ended
  | succ n =>
    obtain ⟨other, apart⟩ := exists_ne fault
    obtain ⟨nodes, runs, entered⟩ := exists_runs ⟨n + 1, point, machine⟩ rfl
    cases found : nodes.findSome? (fun node => crashElse n fault other node.1 node.2) with
    | some =>
      obtain ⟨node, isNode, same⟩ := List.exists_of_findSome?_eq_some found
      rw [crashElse] at same
      split at same
      case isTrue crashes => exact .inr (.inr ⟨⟨n, node.1, node.2⟩, (entered _ _).mp isNode, crashes⟩)
      case isFalse => cases same
    | none =>
      -- No part that is run crashes, so that it makes no difference what parts that crash would do.
      have quiet := runs.quiet _ found
      obtain ⟨evals, execs⟩ := not_crashes_crashElse (n := n) apart
      have bigger := Parts.extends_crashing (.ofFuel n) (crashElse n fault other)
      simp only [Point.run_succ] at ended
      rw [← quiet] at ended
      rcases raises_of_layer evals execs ⟨m', ended⟩ with raises | derails
      · exact .inl ⟨n, rfl, raises.extend bigger⟩
      · exact .inr (.inl ⟨n, rfl, derails.extend bigger⟩)

end Visit

/-! ### Runs -/

section
variable {program : List Stmt} {fuel : Nat} {start : Machine}

/-- A node that is run crashes only if one that is run does so by itself, by induction on the number of layers. -/
theorem Reached.origin {n : Nat} {point : Point} (reached : Reached program fuel start ⟨n, point, m⟩)
    (ends : Visit.Ends ⟨n, point, m⟩ (.crashed fault)) :
    ∃ w, Reached program fuel start w ∧ (w.Raises fault ∨ w.Derails fault) := by
  induction n generalizing point m with
  | zero =>
    obtain ⟨m', ended⟩ := ends
    cases point <;> cases ended
  | succ n ih =>
    rcases ends.crashed with raises | derails | ⟨⟨k, part, m'⟩, enters, inner⟩
    · exact ⟨_, reached, .inl raises⟩
    · exact ⟨_, reached, .inr derails⟩
    · obtain rfl : n = k := Nat.succ.inj enters.1
      exact ih (reached.inner enters) inner

/-- An ending that leaves neither a loop nor a function is never caught, by induction on how the node is reached. -/
theorem Reached.runAll_error {ending : Ending} (noExit : ending.isExit = false) {w : Visit}
    (reached : Reached program fuel start w) (ends : w.Ends ending) :
    ∃ m, runAll (execute fuel) program start = .error ending m := by
  induction reached with
  | statement split ran =>
    obtain ⟨m', ended⟩ := ends
    rw [split]
    exact ⟨m', runAll_of_error _ ran ended⟩
  | @inner v w _ enters ih =>
    refine ih (enters.ends (fun s _ => ?_) ends)
    cases v.point with
    | eval =>
      rintro value rfl
      cases noExit
    | exec =>
      rintro - rfl
      cases noExit

/-- A run crashes exactly if a node that is run does so by itself. -/
theorem crashes_runAll_iff : Crashes fault (runAll (execute fuel) program) start ↔
    ∃ w, Reached program fuel start w ∧ (w.Raises fault ∨ w.Derails fault) := by
  constructor
  · rintro ⟨m', ended⟩
    obtain ⟨before, s, rest, m₁, split, ran, ends⟩ := exists_of_runAll_error ended
    exact Reached.origin (.statement split ran) ⟨m', ends⟩
  · rintro ⟨w, reached, raises | derails⟩
    · exact reached.runAll_error rfl raises.ends
    · exact reached.runAll_error rfl derails.ends

end

end LoxLang
