import LoxLang.Proofs.Sequencing

/-!
Two runs side by side. A simulation says which machines, values and tokens of two runs go together, and when the two
have ended alike. What evaluation does with them is followed here once, for every simulation: operators, texts, built-in
functions, arrays and properties end alike from machines that go together.
-/

namespace LoxLang

open Eval

variable {m : Machine} {value value' : Value} {name name' : Token}

/-! ### Faults that have nothing to do with scopes -/

/-- The faults of a lookup that finds no scope. -/
def Fault.ofScope : Fault → Bool
  | .scopeTooDeep | .unresolvedSuper => true
  | _ => false

/-- A result that is no fault of a lookup. -/
def Harmless {α : Type} (x : Except Fault α) : Prop := ∀ fault, x = .error fault → fault.ofScope = false

namespace Harmless

variable {α β : Type}

theorem ok (a : α) : Harmless (.ok a) := nofun

theorem error {fault : Fault} (h : fault.ofScope = false) : Harmless (.error fault : Except Fault α) := by
  rintro _ ⟨⟩
  exact h

theorem bind {x : Except Fault α} {f : α → Except Fault β} (first : Harmless x) (second : ∀ a, Harmless (f a)) :
    Harmless (x.bind f) := by
  cases x with
  | error => exact fun _ same => first _ (by simpa [Except.bind] using same)
  | ok a => exact second a

theorem ite {p : Prop} [Decidable p] {x y : Except Fault α} (yes : Harmless x) (no : Harmless y) :
    Harmless (if p then x else y) := by
  split
  · exact yes
  · exact no

end Harmless

theorem harmless_toInteger (x : Float) : Harmless (toInteger x) := by
  unfold toInteger
  split
  · exact .error rfl
  · exact .error rfl
  · exact .ok _

theorem harmless_toCount (n : Int) : Harmless (toCount n) := .ite (.error rfl) (.ok _)

theorem harmless_convert (value : Value) : Harmless (convert value) := by
  unfold convert
  split
  · exact .ok _
  · split
    · split
      · exact .ok _
      · exact .error rfl
    · exact .error rfl

theorem harmless_convertToInteger (value : Value) : Harmless (convertToInteger value) :=
  (harmless_convert value).bind harmless_toInteger

theorem harmless_power (x y : Float) : Harmless (power x y) :=
  .ite (.error rfl) (.ite (.ite (.error rfl) (.error rfl)) (.ite (.error rfl) (.ok _)))

theorem harmless_towardZero (x : Float) : Harmless (towardZero x) := by
  unfold towardZero
  cases whole : toInteger x with
  | ok => exact .ok _
  | error fault => exact .error (harmless_toInteger x fault whole)

theorem harmless_cellOf (size : Nat) (index : Value) : Harmless (cellOf size index) := by
  unfold cellOf
  split
  · exact .ok _
  · exact .error rfl
  · exact .ok _

/-! ### Texts of values -/

theorem exists_of_mapM_error {α β ε : Type} {f : α → Except ε β} {values : List α} {e : ε}
    (failed : values.mapM f = .error e) : ∃ value ∈ values, f value = .error e := by
  induction values with
  | nil => cases failed
  | cons value rest ih =>
    rw [List.mapM_cons] at failed
    cases first : f value with
    | error =>
      rw [first] at failed
      cases failed
      exact ⟨value, List.mem_cons_self, first⟩
    | ok =>
      rw [first] at failed
      cases others : rest.mapM f with
      | error =>
        rw [others] at failed
        cases failed
        obtain ⟨later, member, same⟩ := ih others
        exact ⟨later, List.mem_cons_of_mem value member, same⟩
      | ok =>
        rw [others] at failed
        cases failed

/-- The text of a value shows another one: the value itself, or what the elements of an array show. -/
inductive Machine.Shows (m : Machine) : Value → Value → Prop
  | itself {value : Value} : m.Shows value value
  | element {id : Nat} {value inner : Value} (member : value ∈ (m.elements id).toList) (shows_ : m.Shows value inner) :
    m.Shows (.array id) inner

/-- A value has no text if arrays are nested too deeply, or if it shows an object without a class. -/
theorem Machine.display_error {n : Nat} {ending : Ending} (failed : m.display n value = .error ending) :
    ending = .outOfFuel ∨ ∃ o, m.Shows value (.object o) ∧ o.madeBy = none ∧ ending = .crashed .noClass := by
  have ofObject {n : Nat} {o : Instance} (failed : m.display n (.object o) = .error ending) :
      ending = .outOfFuel ∨ ∃ p, m.Shows (.object o) (.object p) ∧ p.madeBy = none ∧ ending = .crashed .noClass := by
    simp only [display] at failed
    split at failed
    · cases failed
    · rename_i noClass
      cases failed
      exact .inr ⟨o, .itself, noClass, rfl⟩
  induction n generalizing value with
  | zero =>
    cases value with
    | array =>
      cases failed
      exact .inl rfl
    | object => exact ofObject failed
    | bool b => cases b <;> cases failed
    | _ => cases failed
  | succ n ih =>
    cases value with
    | array id =>
      simp only [display] at failed
      cases texts : (m.elements id).toList.mapM (m.display n) with
      | error =>
        rw [texts] at failed
        cases failed
        obtain ⟨value, member, same⟩ := exists_of_mapM_error texts
        rcases ih same with isFuel | ⟨o, shows_, noClass, isCrash⟩
        · exact .inl isFuel
        · exact .inr ⟨o, .element member shows_, noClass, isCrash⟩
      | ok =>
        rw [texts] at failed
        cases failed
    | object => exact ofObject failed
    | bool b => cases b <;> cases failed
    | _ => cases failed

/-- A value without declarations in it. -/
def Value.isPlain : Value → Bool
  | .nil | .bool _ | .number _ | .string _ | .array _ | .arrayFunction .. => true
  | _ => false

/-! ### Values that go together -/

/-- How two runs correspond, for each kind of thing that a value can be, and for the methods of classes. -/
structure Kinds where
  objects : Instance → Instance → Prop
  classes : Class → Class → Prop
  methods : Method → Method → Prop
  functions : Closure → Closure → Prop
  traits : Trait → Trait → Prop
  builtins : Builtin → Prop

namespace Kinds

/-- The same value, but for the things in it that correspond. -/
inductive Values (k : Kinds) : Value → Value → Prop
  | nil : Values k .nil .nil
  | bool (value : Bool) : Values k (.bool value) (.bool value)
  | number (value : Float) : Values k (.number value) (.number value)
  | string (value : String) : Values k (.string value) (.string value)
  | array (id : Nat) : Values k (.array id) (.array id)
  | object {o o' : Instance} (alike : k.objects o o') : Values k (.object o) (.object o')
  | classObject {c c' : Class} (alike : k.classes c c') : Values k (.classObject c) (.classObject c')
  | function {f f' : Closure} (alike : k.functions f f') : Values k (.function f) (.function f')
  | trait {t t' : Trait} (alike : k.traits t t') : Values k (.trait t) (.trait t')
  | builtin {b : Builtin} (allowed : k.builtins b) : Values k (.builtin b) (.builtin b)
  | arrayFunction (id : Nat) (access : ArrayAccess) (array : Nat) :
    Values k (.arrayFunction id access array) (.arrayFunction id access array)

/-- Methods that are not bound to an object, or the same built-in function. -/
inductive Methods (k : Kinds) : Method → Method → Prop
  | closure {f f' : Closure} (alike : k.methods (.closure f) (.closure f')) : Methods k (.closure f) (.closure f')
  | builtin {b : Builtin} (allowed : k.builtins b) : Methods k (.builtin b) (.builtin b)

/-- What corresponding things have in common. -/
structure Agree (k : Kinds) : Prop where
  object_id : ∀ {o o'}, k.objects o o' → o'.id = o.id
  object_name : ∀ {o o'}, k.objects o o' → o'.madeBy.map Class.name = o.madeBy.map Class.name
  object_method : ∀ {o o'} name, k.objects o o' →
    Option.Rel k.methods (o.madeBy.bind (·.findMethod? name)) (o'.madeBy.bind (·.findMethod? name))
  class_id : ∀ {c c'}, k.classes c c' → c'.id = c.id
  class_name : ∀ {c c'}, k.classes c c' → c'.name = c.name
  class_method : ∀ {c c'} name, k.classes c c' →
    Option.Rel k.methods (c.metaclass.bind (·.findMethod? name)) (c'.metaclass.bind (·.findMethod? name))
  makes : ∀ {c c'} id, k.classes c c' → k.objects ⟨id, some c⟩ ⟨id, some c'⟩
  method : ∀ {x x'}, k.methods x x' → k.Methods x x'
  method_arity : ∀ {x x'}, k.methods x x' → x'.arity = x.arity
  function_id : ∀ {f f'}, k.functions f f' → f'.id = f.id
  function_name : ∀ {f f'}, k.functions f f' → f'.decl.name.lexeme = f.decl.name.lexeme
  function_arity : ∀ {f f'}, k.functions f f' → f'.decl.arity = f.decl.arity
  function_getter : ∀ {f f'}, k.functions f f' → f'.decl.isGetter = f.decl.isGetter
  trait_id : ∀ {t t'}, k.traits t t' → t'.id = t.id
  trait_name : ∀ {t t'}, k.traits t t' → t'.name.text = t.name.text

variable {k : Kinds} {value value' : Value}

theorem Agree.findMethod? (agree : k.Agree) {c c' : Class} (alike : k.classes c c') (name : String) :
    Option.Rel k.methods (c.findMethod? name) (c'.findMethod? name) := agree.object_method name (agree.makes 0 alike)

theorem Agree.class_arity (agree : k.Agree) {c c' : Class} (alike : k.classes c c') : c'.arity = c.arity := by
  have found := agree.findMethod? alike initName
  rw [Class.arity, Class.arity]
  generalize c.findMethod? initName = x, c'.findMethod? initName = x' at found
  cases found with
  | none => rfl
  | some related => exact agree.method_arity related

theorem Values.isTruthy_eq (alike : k.Values value value') : value'.isTruthy = value.isTruthy := by cases alike <;> rfl

theorem Values.toNumber?_eq (alike : k.Values value value') : value'.toNumber? = value.toNumber? := by
  cases alike <;> rfl

theorem Values.convertToInteger_eq (alike : k.Values value value') :
    convertToInteger value' = convertToInteger value := by
  cases alike <;> rfl

theorem Values.arity?_eq (agree : k.Agree) (alike : k.Values value value') : value'.arity? = value.arity? := by
  cases alike with
  | classObject alike => exact congrArg some (agree.class_arity alike)
  | function alike => exact congrArg some (agree.function_arity alike)
  | _ => rfl

theorem Values.equals_eq (agree : k.Agree) (alike : k.Values value value') {other other' : Value}
    (too : k.Values other other') : value'.equals other' = value.equals other := by
  cases alike with
  | object alike =>
    cases too with
    | object related => simp only [Value.equals, agree.object_id alike, agree.object_id related]
    | _ => rfl
  | classObject alike =>
    cases too with
    | classObject related => simp only [Value.equals, agree.class_id alike, agree.class_id related]
    | _ => rfl
  | function alike =>
    cases too with
    | function related => simp only [Value.equals, agree.function_id alike, agree.function_id related]
    | _ => rfl
  | trait alike =>
    cases too with
    | trait related => simp only [Value.equals, agree.trait_id alike, agree.trait_id related]
    | _ => rfl
  | _ => cases too <;> rfl

end Kinds

/-! ### Lists and options that go together -/

section
variable {α β : Type} {R : α → β → Prop} {xs : List α} {ys : List β}

theorem mapM_eq_of_forall₂ {γ : Type} {M : Type → Type} [Monad M] [LawfulMonad M] {f : α → M γ} {f' : β → M γ}
    (same : ∀ x y, R x y → f' y = f x) (all : List.Forall₂ R xs ys) : ys.mapM f' = xs.mapM f := by
  induction all with
  | nil => rfl
  | cons first _ ih => rw [List.mapM_cons, List.mapM_cons, same _ _ first, ih]

theorem rel_getElem? (all : List.Forall₂ R xs ys) (i : Nat) : Option.Rel R xs[i]? ys[i]? := by
  induction all generalizing i with
  | nil => exact .none
  | cons first _ ih =>
    cases i with
    | zero => exact .some first
    | succ i => exact ih i

theorem forall₂_set (all : List.Forall₂ R xs ys) (i : Nat) {x : α} {y : β} (related : R x y) :
    List.Forall₂ R (xs.set i x) (ys.set i y) := by
  induction all generalizing i with
  | nil => exact .nil
  | cons first others ih =>
    cases i with
    | zero => exact .cons related others
    | succ i => exact .cons first (ih i)

theorem forall₂_setIfInBounds {xs : Array α} {ys : Array β} (all : List.Forall₂ R xs.toList ys.toList) (i : Nat) {x : α}
    {y : β} (related : R x y) : List.Forall₂ R (xs.setIfInBounds i x).toList (ys.setIfInBounds i y).toList := by
  simpa only [Array.toList_setIfInBounds] using forall₂_set all i related

theorem rel_map (f : α → β) (x : Option α) : Option.Rel (fun a b => f a = b) x (x.map f) := by
  cases x with
  | none => exact .none
  | some => exact .some rfl

theorem forall₂_map (f : α → β) (xs : List α) : List.Forall₂ (fun x y => f x = y) xs (xs.map f) :=
  List.forall₂_map_right_iff.mpr (List.forall₂_same.mpr fun _ _ => rfl)

theorem rel_name {C : Class → Class → Prop} (name : ∀ {c c'}, C c c' → c'.name = c.name) {c c' : Option Class}
    (made : Option.Rel C c c') : c'.map Class.name = c.map Class.name := by
  cases made with
  | none => rfl
  | some related => exact congrArg some (name related)

theorem rel_findMethod? {C : Class → Class → Prop} {M : Method → Method → Prop} {name : String}
    (found : ∀ {c c'}, C c c' → Option.Rel M (c.findMethod? name) (c'.findMethod? name)) {c c' : Option Class}
    (made : Option.Rel C c c') : Option.Rel M (c.bind (·.findMethod? name)) (c'.bind (·.findMethod? name)) := by
  cases made with
  | none => exact .none
  | some related => exact found related

end

/-! ### Entries of tables -/

section
variable {α β : Type} {B : Nat → α → β → Prop} {P : α → Prop} {xs : Array α} {ys : Array β} {x : α} {y : β}

theorem rel_modify (sizes : ys.size = xs.size) (old : ∀ i, B i (xs[i]?.getD x) (ys[i]?.getD y)) {f : α → α} {g : β → β}
    (k : Nat) (change : ∀ a b, B k a b → B k (f a) (g b)) (i : Nat) :
    B i ((xs.modify k f)[i]?.getD x) ((ys.modify k g)[i]?.getD y) := by
  have here := old i
  simp only [Array.getElem?_modify]
  by_cases same : k = i
  · subst same
    by_cases inside : k < xs.size
    · have inside' : k < ys.size := by rwa [sizes]
      simp only [Array.getElem?_eq_getElem inside, Array.getElem?_eq_getElem inside', if_true, Option.map_some,
        Option.getD_some] at here ⊢
      exact change _ _ here
    · have outside' : ¬ k < ys.size := by rwa [sizes]
      simpa [inside, outside'] using here
  · simpa only [if_neg same] using here

theorem rel_push (sizes : ys.size = xs.size) (old : ∀ i, B i (xs[i]?.getD x) (ys[i]?.getD y)) {a : α} {b : β}
    (new : B xs.size a b) (i : Nat) : B i ((xs.push a)[i]?.getD x) ((ys.push b)[i]?.getD y) := by
  have here := old i
  simp only [Array.getElem?_push, sizes]
  by_cases same : i = xs.size
  · simpa only [same, if_true, Option.getD_some] using new
  · simpa only [if_neg same] using here

theorem all_modify (old : ∀ i : Nat, P (xs[i]?.getD x)) {f : α → α} (k : Nat) (change : ∀ a, P a → P (f a)) (i : Nat) :
    P ((xs.modify k f)[i]?.getD x) :=
  rel_modify (B := fun _ a _ => P a) (y := x) (g := f) (Eq.refl xs.size) old k (fun a _ => change a) i

theorem all_push (old : ∀ i : Nat, P (xs[i]?.getD x)) {a : α} (new : P a) (i : Nat) : P ((xs.push a)[i]?.getD x) :=
  rel_push (B := fun _ a _ => P a) (y := x) (b := a) (Eq.refl xs.size) old new i

theorem all_setIfInBounds (k : Nat) {a : α} (new : P a) {xs : Array α} (old : ∀ b ∈ xs.toList, P b) :
    ∀ b ∈ (xs.setIfInBounds k a).toList, P b := by
  intro b member
  rw [Array.toList_setIfInBounds] at member
  rcases List.mem_or_eq_of_mem_set member with member | rfl
  · exact old b member
  · exact new

end

/-! ### Results of operators -/

/-- The same number, text or truth value, the same error at corresponding tokens, or the same fault, which is none of a
lookup. -/
inductive Outcomes (Tokens : Token → Token → Prop) : Except Ending Value → Except Ending Value → Prop
  | data {value : Value} (isPlain : value.isPlain = true) : Outcomes Tokens (.ok value) (.ok value)
  | failed {token token' : Token} (tokens : Tokens token token') (cause : Cause) :
    Outcomes Tokens (.error (.error token cause)) (.error (.error token' cause))
  | crashed {fault : Fault} (harmless : fault.ofScope = false) :
    Outcomes Tokens (.error (.crashed fault)) (.error (.crashed fault))

namespace Kinds

variable {k : Kinds} {Tokens : Token → Token → Prop} {op op' : Token} (tokens : Tokens op op')
  {left left' right right' : Value} (first : k.Values left left')

section
variable (second : k.Values right right')
include tokens first second

theorem outcomes_onNumbers {operation operation' : Float → Float → Except Ending Value}
    (each : ∀ x y, Outcomes Tokens (operation x y) (operation' x y)) :
    Outcomes Tokens (onNumbers op operation left right) (onNumbers op' operation' left' right') := by
  cases first with
  | number x =>
    cases second with
    | number y => exact each x y
    | _ => exact .failed tokens _
  | _ => exact .failed tokens _

theorem outcomes_compareNumbers (holds : Float → Float → Bool) :
    Outcomes Tokens (compareNumbers op holds left right) (compareNumbers op' holds left' right') :=
  outcomes_onNumbers tokens first second fun _ _ => .data rfl

theorem outcomes_divideNumbers (operation : Float → Float → Float) :
    Outcomes Tokens (divideNumbers op operation left right) (divideNumbers op' operation left' right') := by
  refine outcomes_onNumbers tokens first second fun x y => ?_
  split
  · exact .failed tokens _
  · exact .data rfl

theorem outcomes_multiply :
    Outcomes Tokens (multiply op left right) (multiply op' left' right') := by
  cases first with
  | number =>
    cases second with
    | number => exact .data rfl
    | _ => exact .failed tokens _
  | string =>
    cases second with
    | number y =>
      simp only [multiply]
      cases count : (toInteger y).bind toCount with
      | ok => exact .data rfl
      | error fault => exact .crashed ((harmless_toInteger y).bind harmless_toCount fault count)
    | _ => exact .failed tokens _
  | _ => exact .failed tokens _

theorem outcomes_add : Outcomes Tokens (add op left right) (add op' left' right') := by
  cases first with
  | number =>
    cases second with
    | number | string => exact .data rfl
    | _ => exact .failed tokens _
  | string =>
    cases second with
    | number | string => exact .data rfl
    | _ => exact .failed tokens _
  | _ => exact .failed tokens _

theorem outcomes_applyBinary (agree : k.Agree) (kind : op'.kind = op.kind) :
    Outcomes Tokens (applyBinary op left right) (applyBinary op' left' right') := by
  unfold applyBinary
  rw [kind, first.equals_eq agree second]
  cases op.kind with
  | minus => exact outcomes_onNumbers tokens first second fun _ _ => .data rfl
  | slash | modulo => exact outcomes_divideNumbers tokens first second _
  | star => exact outcomes_multiply tokens first second
  | plus => exact outcomes_add tokens first second
  | greater | greaterEqual | less | lessEqual => exact outcomes_compareNumbers tokens first second _
  | _ => exact .data rfl

end

include tokens first in
theorem outcomes_applyUnary (kind : op'.kind = op.kind) :
    Outcomes Tokens (applyUnary op left) (applyUnary op' left') := by
  unfold applyUnary
  rw [kind, first.isTruthy_eq]
  cases op.kind with
  | minus =>
    cases first with
    | number => exact .data rfl
    | _ => exact .failed tokens _
  | _ => exact .data rfl

theorem display_of_arrays (agree : k.Agree) {m' : Machine} {n : Nat}
    (arrays : ∀ id, m'.display n (.array id) = m.display n (.array id)) (alike : k.Values value value') :
    m'.display n value' = m.display n value := by
  cases alike with
  | array id => exact arrays id
  | @object o o' alike =>
    have same := agree.object_name alike
    simp only [Machine.display]
    cases made : o.madeBy <;> cases made' : o'.madeBy <;> simp_all
  | classObject alike => simp only [Machine.display, agree.class_name alike]
  | function alike => simp only [Machine.display, agree.function_name alike]
  | trait alike => simp only [Machine.display, agree.trait_name alike]
  | bool value => cases value <;> simp only [Machine.display]
  | _ => simp only [Machine.display]

theorem display_eq (agree : k.Agree) {m' : Machine}
    (held : ∀ id, List.Forall₂ k.Values (m.elements id).toList (m'.elements id).toList) (n : Nat)
    (alike : k.Values value value') : m'.display n value' = m.display n value := by
  induction n generalizing value value' with
  | zero => exact display_of_arrays agree (fun _ => rfl) alike
  | succ _ ih =>
    refine display_of_arrays agree (fun id => ?_) alike
    simp only [Machine.display]
    rw [mapM_eq_of_forall₂ (R := k.Values) (fun _ _ related => ih related) (held id)]

end Kinds

/-! ### Simulations -/

/-- The machine with other counters and other lines printed. -/
def Machine.aside (m : Machine) (fresh : Nat) (printed : Array String) (clock dice : Readings) : Machine :=
  { m with fresh, printed, clock, dice }

/-- What machines that go together have in common. -/
structure Machine.Agree (R : Value → Value → Prop) (m m' : Machine) : Prop where
  fields : ∀ id name, Option.Rel R ((m.fieldsOf id).get? name) ((m'.fieldsOf id).get? name)
  arrays : m'.arrays.size = m.arrays.size
  elements : ∀ id, List.Forall₂ R (m.elements id).toList (m'.elements id).toList
  fresh : m'.fresh = m.fresh
  printed : m'.printed = m.printed
  clock : m'.clock = m.clock
  dice : m'.dice = m.dice

theorem Token.lexeme_eq_of_eq {t t' : Token} (same : t = t') : t'.lexeme = t.lexeme := by rw [same]

theorem Token.kind_eq_of_eq {t t' : Token} (same : t = t') : t'.kind = t.kind := by rw [same]

/-- Which tokens, values and machines of two runs go together, as seen from a world, and when two computations have ended
alike. Worlds get later as the runs go on; what goes together stays together. -/
structure Simulation (World : Type) where
  Later : World → World → Prop
  Tokens : Token → Token → Prop
  kinds : World → Kinds
  Values : World → Value → Value → Prop
  Machines : World → Machine → Machine → Prop
  Ends {α β : Type} : World → (World → α → β → Prop) → EStateM.Result Ending Machine α →
    EStateM.Result Ending Machine β → Prop
  later_refl : ∀ {w m m'}, Machines w m m' → Later w w
  later_trans : ∀ {u v w}, Later u v → Later v w → Later u w
  lexeme_eq : ∀ {t t'}, Tokens t t' → t'.lexeme = t.lexeme
  kind_eq : ∀ {t t'}, Tokens t t' → t'.kind = t.kind
  native : ∀ {t}, t.line = 0 → Tokens t t
  mono : ∀ {u w value value'}, Later u w → Values u value value' → Values w value value'
  classes_mono : ∀ {u w c c'}, Later u w → (kinds u).classes c c' → (kinds w).classes c c'
  ofKind : ∀ {w value value'}, Values w value value' → (kinds w).Values value value'
  plain : ∀ {w value}, value.isPlain = true → Values w value value
  object : ∀ {w o o'}, (kinds w).objects o o' → Values w (.object o) (.object o')
  function : ∀ {w f f'}, (kinds w).functions f f' → Values w (.function f) (.function f')
  builtin : ∀ {w b}, (kinds w).builtins b → Values w (.builtin b) (.builtin b)
  agree : ∀ {w m m'}, Machines w m m' → (kinds w).Agree
  machines : ∀ {w m m'}, Machines w m m' → m.Agree (Values w) m'
  aside : ∀ {w m m'} fresh printed clock dice, Machines w m m' →
    ∃ u, Later w u ∧ Machines u (m.aside fresh printed clock dice) (m'.aside fresh printed clock dice)
  addArray : ∀ {w m m'} {xs ys : Array Value}, Machines w m m' → List.Forall₂ (Values w) xs.toList ys.toList →
    ∃ u, Later w u ∧ Machines u { m with arrays := m.arrays.push xs } { m' with arrays := m'.arrays.push ys }
  setElement : ∀ {w m m'} id cell {value value'}, Machines w m m' → Values w value value' →
    ∃ u, Later w u ∧ Machines u { m with arrays := m.arrays.modify id (·.setIfInBounds cell value) }
      { m' with arrays := m'.arrays.modify id (·.setIfInBounds cell value') }
  setField : ∀ {w m m'} id name {value value'}, Machines w m m' → Values w value value' →
    ∃ u, Later w u ∧ Machines u { m with fields := m.fields.modify id (·.put name value) }
      { m' with fields := m'.fields.modify id (·.put name value') }
  ok {α β : Type} {R : World → α → β → Prop} : ∀ {u w m m' a a'}, Later w u → Machines u m m' → R u a a' →
    Ends w R (.ok a m) (.ok a' m')
  failed {α β : Type} {R : World → α → β → Prop} : ∀ {w m m' t t'} cause, Machines w m m' → Tokens t t' →
    Ends w R (.error (.error t cause) m) (.error (.error t' cause) m')
  crashed {α β : Type} {R : World → α → β → Prop} : ∀ {w m m' fault}, Machines w m m' → Fault.ofScope fault = false →
    Ends w R (.error (.crashed fault) m) (.error (.crashed fault) m')
  outOfFuel {α β : Type} {R : World → α → β → Prop} : ∀ {w m m'}, Machines w m m' →
    Ends w R (.error .outOfFuel m) (.error .outOfFuel m')
  bind {α β γ δ : Type} {R : World → α → β → Prop} {Q : World → γ → δ → Prop} {x : Eval α} {x' : Eval β}
    {f : α → Eval γ} {f' : β → Eval δ} : ∀ {w m m'}, Machines w m m' → Ends w R (x m) (x' m') →
    (∀ u a a' m₁ m₁', x m = .ok a m₁ → Later w u → Machines u m₁ m₁' → R u a a' → Ends u Q (f a m₁) (f' a' m₁')) →
    Ends w Q ((x >>= f) m) ((x' >>= f') m')
  newObject : ∀ {w m m'}, Machines w m m' → Ends w (fun _ id id' => id = id') (newObject m) (newObject m')
  bindThis : ∀ {w m m' f f' receiver receiver'}, Machines w m m' → (kinds w).methods (.closure f) (.closure f') →
    Values w receiver receiver' → Ends w (fun u g g' => (kinds u).functions g g' ∧ g.decl = f.decl)
      (bindThis f receiver m) (bindThis f' receiver' m')

namespace Simulation

variable {World α β γ δ : Type} (S : Simulation World)

def Follows (w : World) (m m' : Machine) (x : Eval α) (x' : Eval β) (R : World → α → β → Prop) : Prop :=
  S.Ends w R (x m) (x' m')

abbrev Same (_ : World) (a a' : α) : Prop := a = a'

abbrev AllValues (w : World) : List Value → List Value → Prop := List.Forall₂ (S.Values w)

variable {S} {w : World} {m m' : Machine} {R : World → α → β → Prop}

theorem AllValues.mono {u : World} (later : S.Later w u) {values values' : List Value}
    (all : S.AllValues w values values') : S.AllValues u values values' := all.imp fun _ _ => S.mono later

theorem toNumbers_eq {values values' : List Value} (all : S.AllValues w values values') :
    values'.mapM Value.toNumber? = values.mapM Value.toNumber? :=
  mapM_eq_of_forall₂ (fun _ _ related => (S.ofKind related).toNumber?_eq) all

theorem Follows.ite {c : Prop} [Decidable c] {x y : Eval α} {x' y' : Eval β} (yes : S.Follows w m m' x x' R)
    (no : S.Follows w m m' y y' R) : S.Follows w m m' (if c then x else y) (if c then x' else y') R := by
  split
  · exact yes
  · exact no

theorem follows_get {f : Machine → Eval α} {f' : Machine → Eval β} (next : S.Follows w m m' (f m) (f' m') R) :
    S.Follows w m m' (get >>= f) (get >>= f') R := next

theorem follows_scope {f : Frames → Eval α} {f' : Frames → Eval β}
    (next : S.Follows w m m' (f m.scope) (f' m'.scope) R) :
    S.Follows w m m' (scope >>= f) (scope >>= f') R := next

theorem follows_of_ok {x : Eval α} {x' : Eval β} {a : α} {a' : β} {m₁ m₁' : Machine} {u : World}
    (ends : x m = .ok a m₁) (ends' : x' m' = .ok a' m₁') (later : S.Later w u) (after : S.Machines u m₁ m₁')
    (related : R u a a') : S.Follows w m m' x x' R := by
  rw [Follows, ends, ends']
  exact S.ok later after related

section
variable (pair : S.Machines w m m')
include pair

theorem Follows.bind {Q : World → γ → δ → Prop} {x : Eval α} {x' : Eval β} {f : α → Eval γ} {f' : β → Eval δ}
    (first : S.Follows w m m' x x' R)
    (next : ∀ u a a' m₁ m₁', S.Later w u → S.Machines u m₁ m₁' → R u a a' → S.Follows u m₁ m₁' (f a) (f' a') Q) :
    S.Follows w m m' (x >>= f) (x' >>= f') Q := S.bind pair first fun u a a' m₁ m₁' _ => next u a a' m₁ m₁'

theorem Follows.map {Q : World → γ → δ → Prop} {x : Eval α} {x' : Eval β} {f : α → γ} {f' : β → δ}
    (first : S.Follows w m m' x x' R) (result : ∀ u a a', R u a a' → Q u (f a) (f' a')) :
    S.Follows w m m' (f <$> x) (f' <$> x') Q := by
  rw [map_eq_pure_bind, map_eq_pure_bind]
  refine first.bind pair ?_
  intro u a a' m₁ m₁' _ after related
  exact S.ok (S.later_refl after) after (result u a a' related)

theorem Follows.imp {Q : World → α → β → Prop} {x : Eval α} {x' : Eval β} (first : S.Follows w m m' x x' R)
    (weaker : ∀ u a a', R u a a' → Q u a a') : S.Follows w m m' x x' Q := by
  have mapped : S.Follows w m m' (id <$> x) (id <$> x') Q := first.map pair weaker
  rwa [id_map, id_map] at mapped

theorem follows_pure {a : α} {a' : β} (related : R w a a') : S.Follows w m m' (pure a) (pure a') R :=
  S.ok (S.later_refl pair) pair related

theorem follows_fail {token token' : Token} (tokens : S.Tokens token token') (cause : Cause) :
    S.Follows w m m' (fail token cause) (fail token' cause) R := S.failed cause pair tokens

theorem follows_crash {fault : Fault} (harmless : fault.ofScope = false) :
    S.Follows w m m' (crash fault) (crash fault) R := S.crashed pair harmless

theorem follows_orCrash {result : Except Fault α} (harmless : Harmless result) :
    S.Follows w m m' (orCrash result) (orCrash result) Same := by
  cases result with
  | ok => exact follows_pure pair rfl
  | error fault => exact follows_crash pair (harmless fault rfl)

theorem follows_ofExcept {result result' : Except Ending Value} (outcomes : Outcomes S.Tokens result result') :
    S.Follows w m m' (Eval.ofExcept result) (Eval.ofExcept result') S.Values := by
  cases outcomes with
  | data isPlain => exact follows_pure pair (S.plain isPlain)
  | failed tokens cause => exact follows_fail pair tokens cause
  | crashed harmless => exact follows_crash pair harmless

theorem follows_text (alike : S.Values w value value') :
    S.Follows w m m' (text value) (text value') Same := by
  have held := (S.machines pair).elements
  have shown : S.Follows w m m' (Eval.ofExcept (m.display m.displayBound value))
      (Eval.ofExcept (m'.display m'.displayBound value')) Same := by
    have same : m'.displayBound = m.displayBound := (S.machines pair).arrays
    rw [same, Kinds.display_eq (S.agree pair) (fun id => (held id).imp fun _ _ => S.ofKind) _ (S.ofKind alike)]
    cases ends : m.display m.displayBound value with
    | ok => exact follows_pure pair rfl
    | error =>
      rcases Machine.display_error ends with rfl | ⟨_, _, _, rfl⟩
      · exact S.outOfFuel pair
      · exact follows_crash pair rfl
  cases S.ofKind alike with
  | nil => exact follows_fail pair (S.native rfl) _
  | _ => exact follows_get shown

/-! ### Counters -/

/-- A computation that goes by counters, lines and readings and changes nothing else. -/
theorem follows_aside {x : Eval α} (value : α) (fresh : Nat) (printed : Array String) (clock dice : Readings)
    (ends : ∀ m₁ : Machine, x (m₁.aside m.fresh m.printed m.clock m.dice) =
      .ok value (m₁.aside fresh printed clock dice)) : S.Follows w m m' x x Same := by
  have shared := S.machines pair
  obtain ⟨u, later, after⟩ := S.aside fresh printed clock dice pair
  have same : m'.aside m.fresh m.printed m.clock m.dice = m' := by
    rw [← shared.fresh, ← shared.printed, ← shared.clock, ← shared.dice]
    rfl
  exact follows_of_ok (ends m) (same ▸ ends m') later after rfl

theorem follows_freshId : S.Follows w m m' freshId freshId Same :=
  follows_aside pair m.fresh (m.fresh + 1) m.printed m.clock m.dice fun _ => rfl

theorem follows_printLine (line : String) : S.Follows w m m' (printLine line) (printLine line) Same :=
  follows_aside pair () m.fresh (m.printed.push line) m.clock m.dice fun _ => rfl

theorem follows_readClock : S.Follows w m m' readClock readClock Same :=
  follows_aside pair m.clock.take.1 m.fresh m.printed m.clock.take.2 m.dice fun _ => rfl

theorem follows_nextRandom : S.Follows w m m' nextRandom nextRandom Same :=
  follows_aside pair m.dice.take.1 m.fresh m.printed m.clock m.dice.take.2 fun _ => rfl

/-! ### Built-in functions -/

theorem follows_randomBetween (low high : Float) :
    S.Follows w m m' (randomBetween low high) (randomBetween low high) Same := by
  refine .bind pair (follows_nextRandom pair) ?_
  rintro u x _ m₁ m₁' - pair rfl
  exact follows_pure pair rfl

theorem follows_randomWithin (numbers : List Float) :
    S.Follows w m m' (randomWithin numbers) (randomWithin numbers) Same := by
  unfold randomWithin
  split
  · exact follows_randomBetween pair _ _
  · exact follows_crash pair rfl

theorem follows_choose (b : Builtin) (better : Float → Float → Float) (numbers : List Float) :
    S.Follows w m m' (choose b better numbers) (choose b better numbers) Same := by
  cases numbers with
  | nil => exact follows_crash pair rfl
  | cons => exact follows_pure pair rfl

theorem follows_raise (numbers : List Float) : S.Follows w m m' (raise numbers) (raise numbers) Same := by
  unfold raise
  split
  · exact follows_orCrash pair (harmless_power _ _)
  · exact follows_crash pair rfl

section
variable {args args' : List Value} (given : S.AllValues w args args')
include given

theorem follows_onlyArgument : S.Follows w m m' (onlyArgument args) (onlyArgument args') S.Values := by
  cases given with
  | nil => exact follows_crash pair rfl
  | cons first => exact follows_pure pair first

theorem follows_ofNumber (b : Builtin) {f : Float → Except Fault Float} (harmless : ∀ x, Harmless (f x)) :
    S.Follows w m m' (ofNumber b args f) (ofNumber b args' f) S.Values := by
  refine .bind pair (follows_onlyArgument pair given) ?_
  intro u value value' m₁ m₁' _ pair alike
  rw [(S.ofKind alike).toNumber?_eq]
  cases value.toNumber? with
  | none => exact follows_fail pair (S.native rfl) _
  | some x =>
    refine .bind pair (follows_orCrash pair (harmless x)) ?_
    rintro u y _ m₂ m₂' - pair rfl
    exact follows_pure pair (S.plain rfl)

theorem follows_ofNumbers (b : Builtin) {f : List Float → Eval Float}
    (numbers : ∀ xs, S.Follows w m m' (f xs) (f xs) Same) :
    S.Follows w m m' (ofNumbers b args f) (ofNumbers b args' f) S.Values := by
  unfold ofNumbers
  rw [toNumbers_eq given]
  cases args.mapM Value.toNumber? with
  | none => exact follows_fail pair (S.native rfl) _
  | some xs =>
    refine .bind pair (numbers xs) ?_
    rintro u y _ m₁ m₁' - pair rfl
    exact follows_pure pair (S.plain rfl)

omit given in
theorem elements?_rel {u : World} (alike : S.Values u value value') :
    Option.Rel (fun xs ys => S.AllValues w xs.toList ys.toList) (elements? m value) (elements? m' value') := by
  cases S.ofKind alike with
  | array id => exact .some ((S.machines pair).elements id)
  | arrayFunction _ _ id => exact .some ((S.machines pair).elements id)
  | _ => exact .none

theorem follows_sumElements : S.Follows w m m' (sumElements args) (sumElements args') S.Values := by
  refine follows_get (.bind pair (follows_onlyArgument pair given) ?_)
  intro u value value' m₁ m₁' _ after alike
  have held := elements?_rel pair alike
  generalize elements? m value = elements, elements? m' value' = elements' at held ⊢
  cases held with
  | none => exact follows_fail after (S.native rfl) _
  | some all =>
    dsimp only
    rw [toNumbers_eq all]
    cases List.mapM Value.toNumber? _ with
    | none => exact follows_fail after (S.native rfl) _
    | some => exact follows_pure after (S.plain rfl)

theorem follows_makeArray : S.Follows w m m' (makeArray args) (makeArray args') S.Values := by
  refine .bind pair (follows_onlyArgument pair given) ?_
  intro u value value' m₁ m₁' _ pair alike
  rw [(S.ofKind alike).convertToInteger_eq]
  refine .bind pair (follows_orCrash pair ((harmless_convertToInteger value).bind harmless_toCount)) ?_
  rintro u size _ m₂ m₂' - pair rfl
  have filled : S.AllValues u (Array.replicate size.toNat Value.nil).toList
      (Array.replicate size.toNat Value.nil).toList := by
    simp only [Array.toList_replicate, AllValues, List.forall₂_same]
    intro element member
    rw [List.eq_of_mem_replicate member]
    exact S.plain rfl
  obtain ⟨v, later, after⟩ := S.addArray pair filled
  have ends : newArray (Array.replicate size.toNat Value.nil) m₂' =
      .ok m₂.arrays.size { m₂' with arrays := m₂'.arrays.push (Array.replicate size.toNat Value.nil) } := by
    rw [newArray, (S.machines pair).arrays]
  have made : S.Follows u m₂ m₂' (newArray (Array.replicate size.toNat Value.nil))
      (newArray (Array.replicate size.toNat Value.nil)) Same := follows_of_ok rfl ends later after rfl
  refine .bind pair made ?_
  rintro v id _ m₃ m₃' - pair rfl
  exact follows_pure pair (S.plain rfl)

theorem follows_callBuiltin (b : Builtin) :
    S.Follows w m m' (callBuiltin b args) (callBuiltin b args') S.Values := by
  cases b with
  | clock =>
    refine .bind pair (follows_readClock pair) ?_
    rintro u x _ m₁ m₁' - pair rfl
    exact follows_pure pair (S.plain rfl)
  | array => exact follows_makeArray pair given
  | max | min => exact follows_ofNumbers pair given _ (follows_choose pair _ _)
  | sum => exact follows_sumElements pair given
  | randomRange => exact follows_ofNumbers pair given _ (follows_randomWithin pair)
  | random =>
    refine .bind pair (follows_randomBetween pair _ _) ?_
    rintro u x _ m₁ m₁' - pair rfl
    exact follows_pure pair (S.plain rfl)
  | pow => exact follows_ofNumbers pair given _ (follows_raise pair)
  | floor | ceil => exact follows_ofNumber pair given _ harmless_towardZero
  | abs | tanh => exact follows_ofNumber pair given _ fun _ => .ok _
  | exp | log | sqrt | sin | cos => exact follows_ofNumber pair given _ fun _ => .ite (.error rfl) (.ok _)

theorem follows_findCell (access : ArrayAccess) (id : Nat) :
    S.Follows w m m' (findCell access id args) (findCell access id args') Same := by
  refine follows_get ?_
  have size : (m'.elements id).size = (m.elements id).size := ((S.machines pair).elements id).length_eq.symm
  cases given with
  | nil => exact follows_fail pair (S.native rfl) _
  | @cons index index' _ _ alike _ =>
    have same : cellOf (m'.elements id).size index' = cellOf (m.elements id).size index := by
      rw [cellOf, cellOf, (S.ofKind alike).convertToInteger_eq, size]
    simp only [same]
    refine .bind pair (follows_orCrash pair (harmless_cellOf _ index)) ?_
    rintro u found _ m₁ m₁' - pair rfl
    cases found with
    | none => exact follows_fail pair (S.native rfl) _
    | some => exact follows_pure pair rfl

theorem follows_callArrayFunction (access : ArrayAccess) (id : Nat) :
    S.Follows w m m' (callArrayFunction access id args) (callArrayFunction access id args') S.Values := by
  cases access with
  | get =>
    refine .bind pair (follows_findCell pair given .get id) ?_
    rintro u cell _ m₁ m₁' - pair rfl
    refine follows_get (follows_pure pair ?_)
    have element := rel_getElem? ((S.machines pair).elements id) cell
    rw [Array.getElem?_toList, Array.getElem?_toList] at element
    generalize (m₁.elements id)[cell]? = x, (m₁'.elements id)[cell]? = x' at element
    cases element with
    | some related => exact related
    | none => exact S.plain rfl
  | set =>
    refine .bind pair (follows_findCell pair given .set id) ?_
    rintro u cell _ m₁ m₁' later pair rfl
    have value := rel_getElem? (AllValues.mono later given) 1
    generalize args[1]? = x, args'[1]? = x' at value
    cases value with
    | none => exact follows_fail pair (S.native rfl) _
    | some related =>
      obtain ⟨v, later, after⟩ := S.setElement id cell pair related
      exact follows_of_ok rfl rfl later after (S.mono later related)

end

/-! ### Properties -/

theorem follows_readMember {self self' : Value} (alike : S.Values w self self') (id : Nat)
    {madeBy madeBy' : Option Class} (tokens : S.Tokens name name')
    (method : Option.Rel (S.kinds w).methods (madeBy.bind (·.findMethod? name.lexeme))
      (madeBy'.bind (·.findMethod? name.lexeme))) :
    S.Follows w m m' (readMember self id madeBy name) (readMember self' id madeBy' name') S.Values := by
  unfold readMember
  rw [S.lexeme_eq tokens]
  refine follows_get ?_
  have field := (S.machines pair).fields id name.lexeme
  generalize (m.fieldsOf id).get? name.lexeme = x, (m'.fieldsOf id).get? name.lexeme = x' at field
  cases field with
  | some related => exact follows_pure pair related
  | none =>
    simp only
    generalize madeBy.bind (·.findMethod? name.lexeme) = x, madeBy'.bind (·.findMethod? name.lexeme) = x' at method
    cases method with
    | none => exact follows_fail pair tokens _
    | some related =>
      cases (S.agree pair).method related with
      | builtin allowed => exact follows_pure pair (S.builtin allowed)
      | closure related =>
        refine .bind pair (S.bindThis pair related alike) ?_
        intro u f f' m₁ m₁' _ pair bound
        exact follows_pure pair (S.function bound.1)

theorem follows_readArrayMember (id : Nat) (tokens : S.Tokens name name') :
    S.Follows w m m' (readArrayMember id name) (readArrayMember id name') S.Values := by
  have accessor (access : ArrayAccess) :
      S.Follows w m m' (return .arrayFunction (← freshId) access id)
        (return .arrayFunction (← freshId) access id) S.Values := by
    refine .bind pair (follows_freshId pair) ?_
    rintro u number _ m₁ m₁' - pair rfl
    exact follows_pure pair (S.plain rfl)
  have size : (m'.elements id).size = (m.elements id).size := ((S.machines pair).elements id).length_eq.symm
  have length : S.Follows w m m' (return .number (Float.ofNat ((← get).elements id).size))
      (return .number (Float.ofNat ((← get).elements id).size)) S.Values := by
    refine follows_get ?_
    rw [size]
    exact follows_pure pair (S.plain rfl)
  unfold readArrayMember
  rw [S.lexeme_eq tokens]
  exact .ite (accessor .get) (.ite (accessor .set) (.ite length (follows_fail pair tokens _)))

theorem follows_readProperty (alike : S.Values w value value') (tokens : S.Tokens name name') :
    S.Follows w m m' (readProperty value name) (readProperty value' name') S.Values := by
  have agree := S.agree pair
  cases S.ofKind alike with
  | object related =>
    rw [readProperty, readProperty, agree.object_id related]
    exact follows_readMember pair alike _ tokens (agree.object_method _ related)
  | classObject related =>
    rw [readProperty, readProperty, agree.class_id related]
    exact follows_readMember pair alike _ tokens (agree.class_method _ related)
  | array id => exact follows_readArrayMember pair id tokens
  | _ => exact follows_fail pair tokens _

/-- The method of the class that is extended, once the class and the object are found. -/
theorem follows_readSuper {method method' : Token} (tokens : S.Tokens method method') {d d' : Nat}
    (extended : S.Follows w m m' (getAt m.scope d superName) (getAt m'.scope d' superName) S.Values)
    (object : ∀ u m₁ m₁', S.Later w u → S.Machines u m₁ m₁' →
      S.Follows u m₁ m₁' (getAt m.scope (d - 1) thisName) (getAt m'.scope (d' - 1) thisName) S.Values) :
    S.Follows w m m' (readSuper method (some d)) (readSuper method' (some d')) S.Values := by
  refine follows_scope (.bind pair extended ?_)
  intro u base base' m₁ m₁' later₁ pair₁ bases
  refine .bind pair₁ (object u m₁ m₁' later₁ pair₁) ?_
  intro v receiver receiver' m₂ m₂' later₂ pair₂ receivers
  have agree := S.agree pair₂
  rw [S.lexeme_eq tokens]
  cases S.ofKind (S.mono later₂ bases) with
  | @classObject c c' related =>
    have found := agree.findMethod? related method.lexeme
    simp only
    generalize c.findMethod? method.lexeme = x, c'.findMethod? method.lexeme = x' at found
    cases found with
    | none => exact follows_crash pair₂ rfl
    | some related =>
      cases agree.method related with
      | builtin => exact follows_crash pair₂ rfl
      | closure related =>
        refine .bind pair₂ (S.bindThis pair₂ related receivers) ?_
        intro u f f' m₃ m₃' _ pair₃ bound
        exact follows_pure pair₃ (S.function bound.1)
  | _ => exact follows_crash pair₂ rfl

theorem follows_checkHasFields (alike : S.Values w value value') (tokens : S.Tokens name name') :
    S.Follows w m m' (checkHasFields value name) (checkHasFields value' name') Same := by
  cases S.ofKind alike with
  | object | classObject | array => exact follows_pure pair rfl
  | _ => exact follows_fail pair tokens _

theorem follows_setProperty {object object' : Value} (objects : S.Values w object object')
    (tokens : S.Tokens name name') (alike : S.Values w value value') :
    S.Follows w m m' (setProperty object name value) (setProperty object' name' value') Same := by
  have set (id : Nat) : S.Follows w m m' (Eval.setField id name.lexeme value) (Eval.setField id name.lexeme value')
      Same := by
    obtain ⟨u, later, after⟩ := S.setField id name.lexeme pair alike
    exact follows_of_ok rfl rfl later after rfl
  have agree := S.agree pair
  cases S.ofKind objects with
  | object related =>
    rw [setProperty, setProperty, agree.object_id related, S.lexeme_eq tokens]
    exact set _
  | classObject related =>
    rw [setProperty, setProperty, agree.class_id related, S.lexeme_eq tokens]
    exact set _
  | _ => exact follows_fail pair tokens _

end

end Simulation

end LoxLang
