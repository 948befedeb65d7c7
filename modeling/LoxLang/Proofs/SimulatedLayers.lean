import LoxLang.Proofs.Simulation

/-!
Calls and layers of evaluation in a simulation. What two runs do with expressions and statements ends alike if their
parts do, and if functions that go together do so when they are called.
-/

namespace LoxLang.Simulation

open Eval

variable {name name' op op' : Token} {test test' e e' : Expr}

variable {World α β : Type} (S : Simulation World)

/-- From a world on, two computations end alike. -/
def Acts (w : World) (x : Eval α) (x' : Eval β) (R : World → α → β → Prop) : Prop :=
  ∀ u m m', S.Later w u → S.Machines u m m' → S.Follows u m m' x x' R

/-- From a world on, functions that go together end alike when they are given as many arguments as they need. -/
def Calls (w : World) (run run' : Runner) : Prop :=
  ∀ u m m' f f' args args', S.Later w u → S.Machines u m m' → (S.kinds u).functions f f' → S.AllValues u args args' →
    args.length = f.decl.arity →
    S.Follows u m m' (callClosure run f args) (callClosure run' f' args') S.Values

variable {S} {w : World} {m m' : Machine} {R : World → α → β → Prop}

theorem Acts.here {x : Eval α} {x' : Eval β} (acts : S.Acts w x x' R) (pair : S.Machines w m m') :
    S.Follows w m m' x x' R := acts w m m' (S.later_refl pair) pair

theorem Acts.mono {u : World} (later : S.Later w u) {x : Eval α} {x' : Eval β} (acts : S.Acts w x x' R) :
    S.Acts u x x' R := fun v m m' further => acts v m m' (S.later_trans later further)

theorem Calls.mono {u : World} (later : S.Later w u) {run run' : Runner} (calls : S.Calls w run run') :
    S.Calls u run run' := fun v m m' f f' args args' further => calls v m m' f f' args args' (S.later_trans later further)

/-! ### Calls -/

section
variable {run run' : Runner} (calls : S.Calls w run run') (pair : S.Machines w m m') {args args' : List Value}
  (given : S.AllValues w args args')
include calls pair given

theorem follows_callMethod {method method' : Method} (alike : (S.kinds w).methods method method')
    {receiver receiver' : Value} (receivers : S.Values w receiver receiver') (enough : args.length = method.arity) :
    S.Follows w m m' (callMethod run method receiver args) (callMethod run' method' receiver' args')
      S.Values := by
  cases (S.agree pair).method alike with
  | builtin => exact follows_crash pair rfl
  | closure related =>
    refine .bind pair (S.bindThis pair related receivers) ?_
    rintro u f f' m₁ m₁' later pair₁ ⟨bound, same⟩
    exact calls u m₁ m₁' f f' args args' later pair₁ bound (given.mono later) (same ▸ enough)

theorem follows_instantiate {c c' : Class} (alike : (S.kinds w).classes c c') (enough : args.length = c.arity) :
    S.Follows w m m' (instantiate run c args) (instantiate run' c' args') S.Values := by
  refine .bind pair (S.newObject pair) ?_
  rintro u id _ m₁ m₁' later pair₁ rfl
  have agree := S.agree pair₁
  have classes := S.classes_mono later alike
  have objects := S.object (agree.makes id classes)
  have found := agree.findMethod? classes initName
  rw [Class.arity] at enough
  simp only
  generalize c.findMethod? initName = x, c'.findMethod? initName = x' at found enough
  cases found with
  | none => exact follows_pure pair₁ objects
  | some related =>
    have called := follows_callMethod (calls.mono later) pair₁ (given.mono later) related objects enough
    have setUp : S.Follows u m₁ m₁' (discard (callMethod run _ (.object ⟨id, some c⟩) args))
        (discard (callMethod run' _ (.object ⟨id, some c'⟩) args')) Same := called.map pair₁ fun _ _ _ _ => rfl
    refine .bind pair₁ setUp ?_
    rintro v _ _ m₂ m₂' further pair₂ -
    exact follows_pure pair₂ (S.mono further objects)

theorem follows_checkedCall {paren paren' : Token} (tokens : S.Tokens paren paren') {callee callee' : Value}
    (alike : S.Values w callee callee') :
    S.Follows w m m' (checkedCall run paren callee args) (checkedCall run' paren' callee' args') S.Values := by
  have called (enough : callee.arity? = some args.length) :
      S.Follows w m m' (callValue run callee args) (callValue run' callee' args') S.Values := by
    cases S.ofKind alike with
    | function related =>
      exact calls w m m' _ _ args args' (S.later_refl pair) pair related given (Option.some.inj enough).symm
    | classObject related => exact follows_instantiate calls pair given related (Option.some.inj enough).symm
    | builtin => exact follows_callBuiltin pair given _
    | arrayFunction _ access id => exact follows_callArrayFunction pair given access id
    | _ => exact follows_crash pair rfl
  rw [checkedCall, checkedCall, (S.ofKind alike).arity?_eq (S.agree pair), ← given.length_eq]
  cases needed : callee.arity? with
  | none => exact follows_fail pair tokens _
  | some arity =>
    simp only
    split
    · rename_i enough
      exact called (enough ▸ needed)
    · exact follows_fail pair tokens _

omit given in
theorem follows_getProperty {object object' : Value} (alike : S.Values w object object')
    (tokens : S.Tokens name name') :
    S.Follows w m m' (getProperty run object name) (getProperty run' object' name') S.Values := by
  refine .bind pair (follows_readProperty pair alike tokens) ?_
  intro u value value' m₁ m₁' later pair₁ values
  have plain : S.Follows u m₁ m₁' (pure value) (pure value') S.Values := follows_pure pair₁ values
  cases S.ofKind values with
  | @function f f' related =>
    simp only [(S.agree pair₁).function_getter related]
    split
    · rename_i getter
      have enough : 0 = f.decl.arity := by
        simp only [FunDecl.isGetter, Option.isNone_iff_eq_none] at getter
        simp [FunDecl.arity, getter]
      exact calls u m₁ m₁' f f' [] [] later pair₁ related .nil enough
    · exact plain
  | _ => exact plain

end

/-! ### Expressions -/

section
variable (S) in
abbrev Evals (p p' : Parts) (w : World) (e e' : Expr) : Prop := S.Acts w (p.eval e) (p'.eval e') S.Values

variable (S) in
abbrev Execs (p p' : Parts) (w : World) (s s' : Stmt) : Prop := S.Acts w (p.exec s) (p'.exec s') Same

variable (S) {p p' : Parts} (pair : S.Machines w m m')
include pair

theorem follows_evalAll {es es' : List Expr} (all : List.Forall₂ (S.Evals p p' w) es es') :
    S.Follows w m m' (evalAll p.eval es) (evalAll p'.eval es') S.AllValues := by
  induction es generalizing w m m' es' with
  | nil =>
    cases all
    exact follows_pure pair .nil
  | cons _ _ ih =>
    cases all with
    | cons first others =>
      refine .bind pair (first.here pair) ?_
      intro u value value' m₁ m₁' later pair₁ alike
      refine .bind pair₁ (ih pair₁ (others.imp fun _ _ => Acts.mono later)) ?_
      intro v values values' m₂ m₂' further pair₂ all
      exact follows_pure pair₂ (.cons (S.mono further alike) all)

theorem follows_evalOption {e e' : Option Expr} (evals : Option.Rel (S.Evals p p' w) e e') :
    S.Follows w m m' (evalOption p.eval e) (evalOption p'.eval e') S.Values := by
  cases evals with
  | none => exact follows_pure pair (S.plain rfl)
  | some evals => exact evals.here pair

theorem follows_test {test test' : Expr} (evals : S.Evals p p' w test test') :
    S.Follows w m m' (return (← p.eval test).isTruthy) (return (← p'.eval test').isTruthy) Same := by
  refine .bind pair (evals.here pair) ?_
  intro u value value' m₁ m₁' _ pair₁ alike
  exact follows_pure pair₁ (S.ofKind alike).isTruthy_eq.symm

/-- A computation that breaks a loop breaks it in both runs. -/
def CatchesBreak : Prop := ∀ {w m m' x x'}, S.Machines w m m' → S.Follows w m m' x x' Same →
  S.Follows w m m' (catchBreak x) (catchBreak x') Same

theorem follows_repeatWhile (catchBreak : S.CatchesBreak) (condition : S.Evals p p' w test test') {body body' : Stmt}
    (turns : S.Execs p p' w body body') (n : Nat) :
    S.Follows w m m' (repeatWhile (return (← p.eval test).isTruthy) (p.exec body) n)
      (repeatWhile (return (← p'.eval test').isTruthy) (p'.exec body') n) Same := by
  induction n generalizing w m m' with
  | zero => exact S.outOfFuel pair
  | succ _ ih =>
    simp only [repeatWhile_succ]
    refine .bind pair (S.follows_test pair condition) ?_
    rintro u goesOn _ m₁ m₁' later₁ pair₁ rfl
    refine .ite ?_ (follows_pure pair₁ rfl)
    refine .bind pair₁ (catchBreak pair₁ (turns u m₁ m₁' later₁ pair₁)) ?_
    rintro v ended _ m₂ m₂' later₂ pair₂ rfl
    have later := S.later_trans later₁ later₂
    exact .ite (ih pair₂ (condition.mono later) (turns.mono later)) (follows_pure pair₂ rfl)

theorem follows_binary {left left' right right' : Expr} (first : S.Evals p p' w left left')
    (tokens : S.Tokens op op') (second : S.Evals p p' w right right') :
    S.Follows w m m' (evalStep p (.binary left op right)) (evalStep p' (.binary left' op' right'))
      S.Values := by
  refine .bind pair (first.here pair) ?_
  intro u a a' m₁ m₁' later pair₁ alike
  refine .bind pair₁ (second u m₁ m₁' later pair₁) ?_
  intro v b b' m₂ m₂' further pair₂ too
  exact follows_ofExcept pair₂ (Kinds.outcomes_applyBinary tokens (S.ofKind (S.mono further alike)) (S.ofKind too)
    (S.agree pair₂) (S.kind_eq tokens))

theorem follows_logical {left left' right right' : Expr} (first : S.Evals p p' w left left')
    (tokens : S.Tokens op op') (second : S.Evals p p' w right right') :
    S.Follows w m m' (evalStep p (.logical left op right)) (evalStep p' (.logical left' op' right')) S.Values := by
  refine .bind pair (first.here pair) ?_
  intro u a a' m₁ m₁' later pair₁ alike
  rw [decidesAlone, decidesAlone, S.kind_eq tokens, (S.ofKind alike).isTruthy_eq]
  exact .ite (follows_pure pair₁ alike) (second u m₁ m₁' later pair₁)

theorem follows_unary (tokens : S.Tokens op op') {operand operand' : Expr}
    (evals : S.Evals p p' w operand operand') :
    S.Follows w m m' (evalStep p (.unary op operand)) (evalStep p' (.unary op' operand'))
      S.Values := by
  refine .bind pair (evals.here pair) ?_
  intro u a a' m₁ m₁' _ pair₁ alike
  exact follows_ofExcept pair₁ (Kinds.outcomes_applyUnary tokens (S.ofKind alike) (S.kind_eq tokens))

theorem follows_conditional {yes yes' no no' : Expr} (condition : S.Evals p p' w test test')
    (holds : S.Evals p p' w yes yes') (fails : S.Evals p p' w no no') :
    S.Follows w m m' (evalStep p (.conditional test yes no)) (evalStep p' (.conditional test' yes' no'))
      S.Values := by
  refine .bind pair (condition.here pair) ?_
  intro u a a' m₁ m₁' later pair₁ alike
  rw [(S.ofKind alike).isTruthy_eq]
  exact .ite (holds u m₁ m₁' later pair₁) (fails u m₁ m₁' later pair₁)

theorem follows_assign {depth depth' : Option Nat} (evals : S.Evals p p' w e e')
    (assigns : ∀ u m m' value value', S.Later w u → S.Machines u m m' → S.Values u value value' →
      S.Follows u m m' (assignName name depth value) (assignName name' depth' value') Same) :
    S.Follows w m m' (evalStep p (.assign name e depth)) (evalStep p' (.assign name' e' depth')) S.Values := by
  refine .bind pair (evals.here pair) ?_
  intro u a a' m₁ m₁' later pair₁ alike
  refine .bind pair₁ (assigns u m₁ m₁' a a' later pair₁ alike) ?_
  rintro v _ _ m₂ m₂' further pair₂ -
  exact follows_pure pair₂ (S.mono further alike)

theorem follows_call (calls : S.Calls w p.exec p'.exec) {callee callee' : Expr} (evals : S.Evals p p' w callee callee')
    {paren paren' : Token} (tokens : S.Tokens paren paren') {es es' : List Expr}
    (all : List.Forall₂ (S.Evals p p' w) es es') :
    S.Follows w m m' (evalStep p (.call callee paren es)) (evalStep p' (.call callee' paren' es'))
      S.Values := by
  refine .bind pair (evals.here pair) ?_
  intro u f f' m₁ m₁' later pair₁ alike
  refine .bind pair₁ (S.follows_evalAll pair₁ (all.imp fun _ _ => Acts.mono later)) ?_
  intro v args args' m₂ m₂' further pair₂ given
  exact follows_checkedCall (calls.mono (S.later_trans later further)) pair₂ given tokens (S.mono further alike)

theorem follows_getStep (calls : S.Calls w p.exec p'.exec) {object object' : Expr}
    (evals : S.Evals p p' w object object') (tokens : S.Tokens name name') :
    S.Follows w m m' (evalStep p (.get object name)) (evalStep p' (.get object' name')) S.Values := by
  refine .bind pair (evals.here pair) ?_
  intro u value value' m₁ m₁' later pair₁ alike
  exact follows_getProperty (calls.mono later) pair₁ alike tokens

theorem follows_setStep {object object' : Expr} (target : S.Evals p p' w object object')
    (tokens : S.Tokens name name') (evals : S.Evals p p' w e e') :
    S.Follows w m m' (evalStep p (.set object name e)) (evalStep p' (.set object' name' e')) S.Values := by
  refine .bind pair (target.here pair) ?_
  intro u value value' m₁ m₁' later₁ pair₁ targets
  refine .bind pair₁ (follows_checkHasFields pair₁ targets tokens) ?_
  rintro u _ _ m₂ m₂' later₂ pair₂ -
  refine .bind pair₂ (evals u m₂ m₂' (S.later_trans later₁ later₂) pair₂) ?_
  intro u a a' m₃ m₃' later₃ pair₃ alike
  refine .bind pair₃ (follows_setProperty pair₃ (S.mono later₃ (S.mono later₂ targets)) tokens alike) ?_
  rintro u _ _ m₄ m₄' later₄ pair₄ -
  exact follows_pure pair₄ (S.mono later₄ alike)

/-! ### Statements -/

theorem follows_expression (evals : S.Evals p p' w e e') :
    S.Follows w m m' (execStep p (.expression e)) (execStep p' (.expression e')) Same :=
  (evals.here pair).map pair fun _ _ _ _ => rfl

theorem follows_print (evals : S.Evals p p' w e e') :
    S.Follows w m m' (execStep p (.print e)) (execStep p' (.print e')) Same := by
  refine .bind pair (evals.here pair) ?_
  intro u a a' m₁ m₁' _ pair₁ alike
  refine .bind pair₁ (follows_text pair₁ alike) ?_
  rintro v line _ m₂ m₂' - pair₂ rfl
  exact follows_printLine pair₂ line

theorem follows_ifElse (condition : S.Evals p p' w test test') {yes yes' : Stmt} (holds : S.Execs p p' w yes yes')
    {no no' : Option Stmt} (fails : Option.Rel (S.Execs p p' w) no no') :
    S.Follows w m m' (execStep p (.ifElse test yes no)) (execStep p' (.ifElse test' yes' no')) Same := by
  refine .bind pair (condition.here pair) ?_
  intro u a a' m₁ m₁' later pair₁ alike
  rw [(S.ofKind alike).isTruthy_eq]
  refine .ite (holds u m₁ m₁' later pair₁) ?_
  cases fails with
  | none => exact follows_pure pair₁ rfl
  | some fails => exact fails u m₁ m₁' later pair₁

theorem follows_whileLoop (catchBreak : S.CatchesBreak) (fuel : p'.fuel = p.fuel)
    (condition : S.Evals p p' w test test') {body body' : Stmt} (turns : S.Execs p p' w body body') :
    S.Follows w m m' (execStep p (.whileLoop test body)) (execStep p' (.whileLoop test' body')) Same := by
  rw [execStep, execStep, fuel]
  exact S.follows_repeatWhile pair catchBreak condition turns p.fuel

end

end LoxLang.Simulation

/-! ### A run by itself -/

namespace LoxLang

open Eval

/-- What holds all along a run: which values and methods there may be, as seen from a world, and how computations may
end. A run of which something holds goes together with itself. -/
structure Upkeep (World : Type) where
  Later : World → World → Prop
  Allows : World → Value → Prop
  Provides : World → Method → Prop
  Holds : World → Machine → Prop
  Way : World → Ending → Machine → Prop
  later_refl : ∀ {w m}, Holds w m → Later w w
  later_trans : ∀ {u v w}, Later u v → Later v w → Later u w
  mono : ∀ {u w value}, Later u w → Allows u value → Allows w value
  plain : ∀ {w value}, value.isPlain = true → Allows w value
  makes : ∀ {w c} id, Allows w (.classObject c) → Allows w (.object ⟨id, some c⟩)
  methods : ∀ {w o c name method}, Allows w (.object o) → o.madeBy = some c → c.findMethod? name = some method →
    Provides w method
  ownMethods : ∀ {w c k name method}, Allows w (.classObject c) → c.metaclass = some k →
    k.findMethod? name = some method → Provides w method
  builtin : ∀ {w b}, Provides w (.builtin b) → Allows w (.builtin b)
  fields : ∀ {w m id name value}, Holds w m → (m.fieldsOf id).get? name = some value → Allows w value
  elements : ∀ {w m id value}, Holds w m → value ∈ (m.elements id).toList → Allows w value
  aside : ∀ {w m} fresh printed clock dice, Holds w m → ∃ u, Later w u ∧ Holds u (m.aside fresh printed clock dice)
  addArray : ∀ {w m} {xs : Array Value}, Holds w m → (∀ value ∈ xs.toList, Allows w value) →
    ∃ u, Later w u ∧ Holds u { m with arrays := m.arrays.push xs }
  setElement : ∀ {w m} id cell {value}, Holds w m → Allows w value →
    ∃ u, Later w u ∧ Holds u { m with arrays := m.arrays.modify id (·.setIfInBounds cell value) }
  setField : ∀ {w m} id name {value}, Holds w m → Allows w value →
    ∃ u, Later w u ∧ Holds u { m with fields := m.fields.modify id (·.put name value) }
  addObject : ∀ {w m}, Holds w m → ∃ u, Later w u ∧ Holds u { m with fields := m.fields.push .empty }
  way_earlier : ∀ {u w ending m}, Later w u → Way u ending m → Way w ending m
  failed : ∀ {w m} error, Holds w m → Way w (.failed error) m
  crashed : ∀ {w m fault}, Holds w m → Fault.ofScope fault = false → Way w (.crashed fault) m
  outOfFuel : ∀ {w m}, Holds w m → Way w .outOfFuel m
  bindThis : ∀ {w m f receiver}, Holds w m → Provides w (.closure f) → Allows w receiver →
    ∃ u g m₁, bindThis f receiver m = .ok g m₁ ∧ Later w u ∧ Holds u m₁ ∧ Allows u (.function g) ∧ g.decl = f.decl

namespace Upkeep

variable {World α β : Type} (U : Upkeep World)

/-- Two computations have ended with the same machine: with results that go together, or in one of the ways. -/
inductive Kept (w : World) (R : World → α → β → Prop) :
    EStateM.Result Ending Machine α → EStateM.Result Ending Machine β → Prop
  | ok {u : World} {m : Machine} {a : α} {a' : β} (later : U.Later w u) (holds : U.Holds u m) (related : R u a a') :
    Kept w R (.ok a m) (.ok a' m)
  | error {ending : Ending} {m : Machine} (way : U.Way w ending m) : Kept w R (.error ending m) (.error ending m)

def kinds (w : World) : Kinds where
  objects o o' := o' = o ∧ U.Allows w (.object o)
  classes c c' := c' = c ∧ U.Allows w (.classObject c)
  methods x x' := x' = x ∧ U.Provides w x
  functions f f' := f' = f ∧ U.Allows w (.function f)
  traits t t' := t' = t ∧ U.Allows w (.trait t)
  builtins b := U.Allows w (.builtin b)

variable {U} {w : World} {m : Machine}

theorem ofKind {value value' : Value} (alike : value' = value ∧ U.Allows w value) :
    (U.kinds w).Values value value' := by
  obtain ⟨rfl, allowed⟩ := alike
  cases value' with
  | nil | bool | number | string | array | arrayFunction => constructor
  | object => exact .object ⟨rfl, allowed⟩
  | classObject => exact .classObject ⟨rfl, allowed⟩
  | function => exact .function ⟨rfl, allowed⟩
  | trait => exact .trait ⟨rfl, allowed⟩
  | builtin => exact .builtin allowed

theorem rel_self {P : α → Prop} {x : Option α} (each : ∀ a, x = some a → P a) :
    Option.Rel (fun a a' => a' = a ∧ P a) x x := by
  cases x with
  | none => exact .none
  | some a => exact .some ⟨rfl, each a rfl⟩

theorem agree_kinds (U : Upkeep World) (w : World) : (U.kinds w).Agree where
  object_id alike := by rw [alike.1]
  object_name alike := by rw [alike.1]
  object_method name alike := by
    rw [alike.1]
    refine rel_self fun method found => ?_
    obtain ⟨c, made, found⟩ := Option.bind_eq_some_iff.mp found
    exact U.methods alike.2 made found
  class_id alike := by rw [alike.1]
  class_name alike := by rw [alike.1]
  class_method name alike := by
    rw [alike.1]
    refine rel_self fun method found => ?_
    obtain ⟨k, isMeta, found⟩ := Option.bind_eq_some_iff.mp found
    exact U.ownMethods alike.2 isMeta found
  makes id alike := by
    obtain ⟨rfl, allowed⟩ := alike
    exact ⟨rfl, U.makes id allowed⟩
  method {_ method} alike := by
    obtain ⟨rfl, provided⟩ := alike
    cases method with
    | closure => exact .closure ⟨rfl, provided⟩
    | builtin => exact .builtin (U.builtin provided)
  method_arity alike := by rw [alike.1]
  function_id alike := by rw [alike.1]
  function_name alike := by rw [alike.1]
  function_arity alike := by rw [alike.1]
  function_getter alike := by rw [alike.1]
  trait_id alike := by rw [alike.1]
  trait_name alike := by rw [alike.1]

theorem Kept.earlier {u : World} (later : U.Later w u) {R : World → α → β → Prop}
    {r : EStateM.Result Ending Machine α} {r' : EStateM.Result Ending Machine β} (kept : U.Kept u R r r') :
    U.Kept w R r r' := by
  cases kept with
  | ok further holds related => exact .ok (U.later_trans later further) holds related
  | error way => exact .error (U.way_earlier later way)

theorem allows_left {values values' : List Value}
    (all : List.Forall₂ (fun value value' => value' = value ∧ U.Allows w value) values values') :
    values' = values ∧ ∀ value ∈ values, U.Allows w value := by
  induction all with
  | nil => simp
  | cons first _ ih => simpa [first.1, ih.1, first.2] using ih.2

/-- The run by itself as two runs. -/
def simulation (U : Upkeep World) : Simulation World where
  Later := U.Later
  Tokens := Eq
  kinds := U.kinds
  Values w value value' := value' = value ∧ U.Allows w value
  Machines w m m' := m' = m ∧ U.Holds w m
  Ends := U.Kept
  later_refl pair := U.later_refl pair.2
  later_trans := U.later_trans
  lexeme_eq := @Token.lexeme_eq_of_eq
  kind_eq := @Token.kind_eq_of_eq
  native _ := rfl
  mono later alike := ⟨alike.1, U.mono later alike.2⟩
  classes_mono later alike := ⟨alike.1, U.mono later alike.2⟩
  ofKind := ofKind
  plain isPlain := ⟨rfl, U.plain isPlain⟩
  object alike := ⟨by rw [alike.1], alike.2⟩
  function alike := ⟨by rw [alike.1], alike.2⟩
  builtin allowed := ⟨rfl, allowed⟩
  agree _ := U.agree_kinds _
  machines pair := by
    obtain ⟨rfl, holds⟩ := pair
    refine ⟨fun id name => rel_self fun value => U.fields holds, rfl, fun id => ?_, rfl, rfl, rfl, rfl⟩
    exact List.forall₂_same.mpr fun value member => ⟨rfl, U.elements holds member⟩
  aside fresh printed clock dice pair := by
    obtain ⟨rfl, holds⟩ := pair
    obtain ⟨u, later, after⟩ := U.aside fresh printed clock dice holds
    exact ⟨u, later, rfl, after⟩
  addArray {_ _ _ xs ys} pair all := by
    obtain ⟨rfl, holds⟩ := pair
    obtain ⟨same, allowed⟩ := allows_left all
    obtain rfl := Array.toList_inj.mp same
    obtain ⟨u, later, after⟩ := U.addArray holds allowed
    exact ⟨u, later, rfl, after⟩
  setElement id cell _ _ pair alike := by
    obtain ⟨rfl, holds⟩ := pair
    obtain ⟨rfl, allowed⟩ := alike
    obtain ⟨u, later, after⟩ := U.setElement id cell holds allowed
    exact ⟨u, later, rfl, after⟩
  setField id name _ _ pair alike := by
    obtain ⟨rfl, holds⟩ := pair
    obtain ⟨rfl, allowed⟩ := alike
    obtain ⟨u, later, after⟩ := U.setField id name holds allowed
    exact ⟨u, later, rfl, after⟩
  ok later pair related := by
    obtain ⟨rfl, holds⟩ := pair
    exact .ok later holds related
  failed cause pair same := by
    obtain ⟨rfl, holds⟩ := pair
    obtain rfl := same
    exact .error (U.failed _ holds)
  crashed pair harmless := by
    obtain ⟨rfl, holds⟩ := pair
    exact .error (U.crashed holds harmless)
  outOfFuel pair := by
    obtain ⟨rfl, holds⟩ := pair
    exact .error (U.outOfFuel holds)
  bind {_ _ _ _ _ _ x x' _ _ _ m m'} _ first next := by
    simp only [Bind.bind, EStateM.bind]
    generalize ends : x m = r, x' m' = r' at first
    cases first with
    | ok later holds related => exact (next _ _ _ _ _ ends later ⟨rfl, holds⟩ related).earlier later
    | error way => exact .error way
  newObject pair := by
    obtain ⟨rfl, holds⟩ := pair
    obtain ⟨u, later, after⟩ := U.addObject holds
    exact .ok later after rfl
  bindThis pair method receivers := by
    obtain ⟨rfl, holds⟩ := pair
    obtain ⟨same, provided⟩ := method
    obtain rfl := Method.closure.inj same
    obtain ⟨rfl, allowed⟩ := receivers
    obtain ⟨u, g, m₁, ends, later, after, function, decl⟩ := U.bindThis holds provided allowed
    rw [ends]
    exact .ok later after ⟨⟨rfl, function⟩, decl⟩

/-- A loop that is broken goes on if the machine is as it should be. -/
theorem catchesBreak (resumes : ∀ {w m m'}, U.Holds w m → U.Way w .broke m' → ∃ u, U.Later w u ∧ U.Holds u m') :
    U.simulation.CatchesBreak := by
  rintro w _ m x x' ⟨rfl, holds⟩ inner
  unfold Simulation.Follows at inner ⊢
  simp only [catchBreak]
  generalize x m = r, x' m = r' at inner
  cases inner with
  | ok later after => exact .ok later after rfl
  | @error ending _ way =>
    cases ending with
    | broke =>
      obtain ⟨u, later, after⟩ := resumes holds way
      exact .ok later after rfl
    | returned | failed | crashed | outOfFuel => exact .error way

end Upkeep

end LoxLang
