import LoxLang.Proofs.Placements

/-!
The steps of evaluation on two machines one of which has some more frames. From related machines two computations end
alike if they look up the same variables, at whatever depths.
-/

namespace LoxLang

open Eval

variable {value value' : Value}

namespace Placement

/-! ### The simulation -/

/-- The same ending, with related values. -/
inductive Endings (p : Placement) : Ending → Ending → Prop
  | broke : Endings p .broke .broke
  | returned {value value' : Value} (alike : p.Values value value') : Endings p (.returned value) (.returned value')
  | failed (error : RuntimeError) : Endings p (.failed error) (.failed error)
  | crashed (fault : Fault) : Endings p (.crashed fault) (.crashed fault)
  | outOfFuel : Endings p .outOfFuel .outOfFuel

section
variable {α β : Type}

/-- Two computations have ended alike, with machines that are related. Behind a value, and behind the way out of a loop,
the frames in sight are those that were. -/
inductive Results (p : Placement) (g : Nat → Nat) (R : α → β → Prop) :
    EStateM.Result Ending Machine α → EStateM.Result Ending Machine β → Prop
  | ok {m m' : Machine} {a : α} {a' : β} (pair : p.Machines g m m') (related : R a a') :
    Results p g R (.ok a m) (.ok a' m')
  | error {h : Nat → Nat} {m m' : Machine} {ending ending' : Ending} (pair : p.Machines h m m')
    (inSight : ending = .broke → h = g) (alike : p.Endings ending ending') :
    Results p g R (.error ending m) (.error ending' m')

variable {p : Placement} {g : Nat → Nat} {m m' : Machine} {R : α → β → Prop}

theorem Results.bind {γ δ : Type} {S : γ → δ → Prop} {x : Eval α} {x' : Eval β} {f : α → Eval γ} {f' : β → Eval δ}
    (first : p.Results g R (x m) (x' m'))
    (next : ∀ a a' m₁ m₁', x m = .ok a m₁ → p.Machines g m₁ m₁' → R a a' → p.Results g S (f a m₁) (f' a' m₁')) :
    p.Results g S ((x >>= f) m) ((x' >>= f') m') := by
  simp only [Bind.bind, EStateM.bind]
  generalize ends : x m = r, x' m' = r' at first
  cases first with
  | ok pair related => exact next _ _ _ _ ends pair related
  | error pair inSight alike => exact .error pair inSight alike

end

variable {p : Placement} {g : Nat → Nat} {m m' : Machine}

def kinds (p : Placement) : Kinds where
  objects o o' := p.Values (.object o) (.object o')
  classes := p.Classes
  methods := p.Methods
  functions := p.Closures id
  traits := p.Traits
  builtins _ := True

theorem Values.of_isPlain (isPlain : value.isPlain = true) : p.Values value value := by
  cases value with
  | nil | bool | number | string | array | arrayFunction => constructor
  | _ => cases isPlain

theorem Values.ofKind (alike : p.Values value value') : p.kinds.Values value value' := by
  cases alike with
  | nil | bool | number | string | array | arrayFunction => constructor
  | object id made => exact .object (.object id made)
  | classObject alike => exact .classObject alike
  | function alike => exact .function alike
  | trait alike => exact .trait alike
  | builtin => exact .builtin trivial

theorem agree_kinds (p : Placement) : p.kinds.Agree where
  object_id alike := by
    cases alike
    rfl
  object_name alike := by
    cases alike with
    | object _ made => exact rel_name Classes.name_eq made
  object_method name alike := by
    cases alike with
    | object _ made => exact rel_findMethod? (Classes.findMethod? name) made
  class_id := Classes.id_eq
  class_name := Classes.name_eq
  class_method name alike := rel_findMethod? (Classes.findMethod? name) alike.metaclass
  makes id alike := .object id (.some alike)
  method alike := by
    cases alike with
    | closure alike => exact .closure (.closure alike)
    | builtin => exact .builtin trivial
  method_arity alike := by
    cases alike with
    | closure alike => exact alike.arity_eq
    | builtin => rfl
  function_id := Closures.id
  function_name alike := congrArg Token.lexeme alike.name_eq
  function_arity := Closures.arity_eq
  function_getter := Closures.isGetter_eq
  trait_id := Traits.id
  trait_name alike := congrArg Token.text alike.name

def simulation (p : Placement) : Simulation (Nat → Nat) where
  Later g h := h = g
  Tokens := Eq
  kinds _ := p.kinds
  Values _ := p.Values
  Machines := p.Machines
  Ends g R := p.Results g (R g)
  later_refl _ := rfl
  later_trans first second := second.trans first
  lexeme_eq := @Token.lexeme_eq_of_eq
  kind_eq := @Token.kind_eq_of_eq
  native _ := rfl
  mono _ alike := alike
  classes_mono _ alike := alike
  ofKind := Values.ofKind
  plain := .of_isPlain
  object alike := alike
  function := .function
  builtin _ := .builtin _
  agree _ := p.agree_kinds
  machines pair := {
    pair with
    fields := fun id name => (pair.fields id).get? name }
  aside _ _ _ _ pair := ⟨_, rfl, { pair with fresh := rfl, printed := rfl, clock := rfl, dice := rfl }⟩
  addArray pair all := ⟨_, rfl, pair.addArray all⟩
  setElement id cell _ _ pair alike := ⟨_, rfl, pair.setElement id cell alike⟩
  setField id name _ _ pair alike := ⟨_, rfl, pair.setField id name alike⟩
  ok later pair related := by
    cases later
    exact .ok pair related
  failed _ pair same := by
    rw [same]
    exact .error pair (fun _ => rfl) (.failed _)
  crashed pair _ := .error pair (fun _ => rfl) (.crashed _)
  outOfFuel pair := .error pair (fun _ => rfl) .outOfFuel
  bind _ first next := first.bind fun a a' m₁ m₁' ends => next _ a a' m₁ m₁' ends rfl
  newObject pair := by
    rw [newObject, newObject, pair.objects]
    exact .ok pair.addObject rfl
  bindThis pair method receivers := by
    cases method with
    | closure alike =>
      obtain ⟨-, isInitializer, h, chains, shifted, object⟩ := alike
      have after := pair.addFrame (Bindings.alike_empty.put Function.injective_id thisName receivers)
      refine .ok { after with fresh := congrArg (· + 1) after.fresh }
        ⟨⟨pair.fresh, isInitializer, under h, ?_, shifted, object⟩, rfl⟩
      rw [← pair.place_size]
      exact .frame _ chains

/-! ### Computations that end alike -/

open Simulation (follows_freshId follows_get follows_scope follows_pure follows_fail follows_of_ok)

section
variable {α β : Type} {R : α → β → Prop}

abbrev Follows (p : Placement) (g : Nat → Nat) (m m' : Machine) (x : Eval α) (x' : Eval β) (R : α → β → Prop) : Prop :=
  p.simulation.Follows g m m' x x' fun _ => R

theorem Follows.bind {γ δ : Type} {S : γ → δ → Prop} {x : Eval α} {x' : Eval β} {f : α → Eval γ} {f' : β → Eval δ}
    (first : p.Follows g m m' x x' R)
    (next : ∀ a a' m₁ m₁', p.Machines g m₁ m₁' → R a a' → p.Follows g m₁ m₁' (f a) (f' a') S) :
    p.Follows g m m' (x >>= f) (x' >>= f') S := Results.bind first fun a a' m₁ m₁' _ => next a a' m₁ m₁'

section
variable (pair : p.Machines g m m')
include pair

theorem follows_throw {ending ending' : Ending} (alike : p.Endings ending ending') :
    p.Follows g m m' (throw ending) (throw ending') R := .error pair (fun _ => rfl) alike

theorem follows_crash (fault : Fault) : p.Follows g m m' (crash fault) (crash fault) R :=
  follows_throw pair (.crashed fault)

theorem Follows.within {h : Nat → Nat} {chain chain' : Frames} {x : Eval α} {x' : Eval β}
    (inner : p.Follows h { m with scope := chain } { m' with scope := chain' } x x' R) :
    p.Follows g m m' (Eval.within chain x) (Eval.within chain' x') R := by
  unfold Follows Simulation.Follows at inner ⊢
  simp only [Eval.within]
  generalize x { m with scope := chain } = r, x' { m' with scope := chain' } = r' at inner
  cases inner with
  | ok after related => exact .ok (after.rescope pair.scope) related
  | error after _ alike => exact .error (after.rescope pair.scope) (fun _ => rfl) alike

theorem Follows.call {h : Nat → Nat} {chain chain' : Frames} {x x' : Eval Unit} {y y' : Eval Value}
    (inner : p.Follows h { m with scope := chain } { m' with scope := chain' } x x' Eq)
    (otherwise : ∀ m₁ m₁', p.Machines g m₁ m₁' → p.Follows g m₁ m₁' y y' p.Values) :
    p.Follows g m m' (catchReturn (Eval.within chain x) y) (catchReturn (Eval.within chain' x') y') p.Values := by
  unfold Follows Simulation.Follows at inner ⊢
  simp only [catchReturn, Eval.within]
  generalize x { m with scope := chain } = r, x' { m' with scope := chain' } = r' at inner
  cases inner with
  | ok after => exact otherwise _ _ (after.rescope pair.scope)
  | error after _ alike =>
    have restored := after.rescope pair.scope
    cases alike with
    | broke => exact .error restored (fun _ => rfl) .broke
    | returned alike => exact .ok restored alike
    | failed | crashed | outOfFuel => exact .error restored (fun _ => rfl) (by constructor)

end

theorem Follows.catchBreak {x x' : Eval Unit} (inner : p.Follows g m m' x x' Eq) :
    p.Follows g m m' (Eval.catchBreak x) (Eval.catchBreak x') Eq := by
  unfold Follows Simulation.Follows at inner ⊢
  simp only [Eval.catchBreak]
  generalize x m = r, x' m' = r' at inner
  cases inner with
  | ok after => exact .ok after rfl
  | error after inSight alike =>
    cases alike with
    | broke =>
      obtain rfl := inSight rfl
      exact .ok after rfl
    | returned alike => exact .error after inSight (.returned alike)
    | failed | crashed | outOfFuel => exact .error after inSight (by constructor)

end

/-! ### Elementary steps -/

section
variable (pair : p.Machines g m m')
include pair

theorem follows_newFrame {b b' : Bindings Value} (alike : b.Paired p.Values b') :
    p.Follows g m m' (newFrame b) (newFrame b') fun id id' => id' = p.place id :=
  follows_of_ok rfl rfl rfl (pair.addFrame alike) pair.place_size.symm

section
variable {h : Nat → Nat} {chain chain' : Frames} (chains : p.Chains h chain chain')
include chains

theorem follows_getAt (depth : Nat) (name : String) :
    p.Follows g m m' (getAt chain depth name) (getAt chain' (h depth) name) p.Values := by
  unfold getAt ancestor
  rw [chains.getElem?_eq depth]
  cases chain[depth]? with
  | none => exact follows_crash pair _
  | some id =>
    have bound := (pair.frames id).get? name
    have value : ∀ {x x' : Option Value}, Option.Rel p.Values x x' → p.Values (x.getD .nil) (x'.getD .nil) := by
      rintro _ _ (related | _)
      · exact related
      · exact .nil
    exact follows_pure pair (value bound)

theorem follows_assignAt (depth : Nat) (name : String) (alike : p.Values value value') :
    p.Follows g m m' (assignAt chain depth name value) (assignAt chain' (h depth) name value') Eq := by
  unfold assignAt ancestor
  rw [chains.getElem?_eq depth]
  cases chain[depth]? with
  | none => exact follows_crash pair _
  | some id => exact follows_of_ok rfl rfl rfl (pair.bind id name alike) rfl

/-- The frame that has a name is found in its place, for the frames between have no names. -/
theorem findFrame?_eq (name : String) : m'.findFrame? chain' name = (m.findFrame? chain name).map p.place := by
  refine chains.find?_eq (fun id => (pair.frames id).contains name) fun id unplaced => ?_
  rw [pair.unplaced id unplaced]
  rfl

theorem follows_getNamed (name : Token) :
    p.Follows g m m' (getNamed chain name) (getNamed chain' name) p.Values := by
  refine follows_get ?_
  simp only [Machine.lookup?, findFrame?_eq pair chains]
  cases m.findFrame? chain name.lexeme with
  | none => exact follows_fail pair rfl _
  | some id =>
    have bound := (pair.frames id).get? name.lexeme
    simp only [Option.map_some, Option.bind_some]
    generalize (m.frame id).get? name.lexeme = x, (m'.frame (p.place id)).get? name.lexeme = x' at bound
    cases bound with
    | none => exact follows_fail pair rfl _
    | some related => exact follows_pure pair related

theorem follows_assignNamed (name : Token) (alike : p.Values value value') :
    p.Follows g m m' (assignNamed chain name value) (assignNamed chain' name value') Eq := by
  refine follows_get ?_
  simp only [findFrame?_eq pair chains]
  cases m.findFrame? chain name.lexeme with
  | none => exact follows_fail pair rfl _
  | some id => exact follows_of_ok rfl rfl rfl (pair.bind id name.lexeme alike) rfl

end

theorem follows_define (here : g 0 = 0) (name : String) (alike : p.Values value value') :
    p.Follows g m m' (define name value) (define name value') Eq := by
  refine follows_scope ?_
  rcases pair.scope.head_cases here with ⟨empty, empty'⟩ | ⟨inner, outer, outer', first, first'⟩
  · rw [empty, empty']
    exact follows_pure pair rfl
  · rw [first, first']
    exact follows_of_ok rfl rfl rfl (pair.bind inner name alike) rfl

end

theorem chains_globals (p : Placement) : p.Chains id globalFrames globalFrames := by
  have chains : p.Chains (under id) [0] [p.place 0] := .frame 0 .nil
  rwa [under_id, p.globals] at chains

section
variable (pair : p.Machines g m m')
include pair

theorem follows_readName (name : Token) (depth : Option Nat) :
    p.Follows g m m' (readName name depth) (readName name (depth.map g)) p.Values := by
  cases depth with
  | none => exact follows_getNamed pair p.chains_globals name
  | some d => exact follows_scope (follows_getAt pair pair.scope d name.lexeme)

theorem follows_assignName (name : Token) (depth : Option Nat) (alike : p.Values value value') :
    p.Follows g m m' (assignName name depth value) (assignName name (depth.map g) value') Eq := by
  cases depth with
  | none => exact follows_assignNamed pair p.chains_globals name alike
  | some d => exact follows_scope (follows_assignAt pair pair.scope d name.lexeme alike)

end

/-! ### Functions and properties -/

section
variable (pair : p.Machines g m m')
include pair

theorem follows_makeClosure {between : (Nat → Nat) → Nat → Nat} {decl decl' : FunDecl} {isInitializer : Bool}
    (shifted : FunDecl.Shifted (between g) decl decl') (object : isInitializer = true → between g 0 = 0) :
    p.Follows g m m' (makeClosure decl isInitializer) (makeClosure decl' isInitializer) (p.Closures between) := by
  refine Follows.bind (follows_freshId pair) ?_
  rintro id _ m₁ m₁' pair rfl
  exact follows_scope (follows_pure pair ⟨rfl, rfl, g, pair.scope, shifted, object⟩)

theorem follows_withoutReturn {f f' : Closure} (alike : p.Closures id f f') :
    p.Follows g m m' (withoutReturn f) (withoutReturn f') p.Values := by
  obtain ⟨-, same, h, chains, -, object⟩ := alike
  rw [withoutReturn, withoutReturn, same]
  cases isInitializer : f.isInitializer with
  | false => exact follows_pure pair .nil
  | true =>
    have follows := follows_getAt pair chains 0 thisName
    rw [show h 0 = 0 from object isInitializer] at follows
    exact follows

end

end Placement

end LoxLang
