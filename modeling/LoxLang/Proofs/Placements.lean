import LoxLang.Proofs.FoundedHeaps
import LoxLang.Proofs.Shifting

/-!
Machines one of which has some more frames. A placement says where the frames of the first machine are in the second
one; the frames of the second machine that are nobody's place have no variables. Since functions that are made below
such a frame look further out, their names are looked up at shifted depths.
-/

namespace LoxLang

variable {value value' : Value} {between : (Nat → Nat) → Nat → Nat} {f f' : Closure}

/-- Where the frames of a machine are in another one. The global frame is the global frame. -/
structure Placement where
  place : FrameId → FrameId
  injective : Function.Injective place
  globals : place 0 = 0

namespace Placement

variable {p : Placement}

/-! ### Frames in sight -/

/-- A frame of the second machine that is nobody's place. -/
def Unplaced (p : Placement) (id : FrameId) : Prop := ∀ other, p.place other ≠ id

/-- The frames in sight in one machine and in the other, which may have frames between them that are nobody's place,
and the shift of the depths. -/
inductive Chains (p : Placement) : (Nat → Nat) → Frames → Frames → Prop
  | nil : Chains p id [] []
  | frame {g : Nat → Nat} {chain chain' : Frames} (inner : FrameId) (outer : Chains p g chain chain') :
    Chains p (under g) (inner :: chain) (p.place inner :: chain')
  | extra {g : Nat → Nat} {chain chain' : Frames} {inner : FrameId} (unplaced : p.Unplaced inner)
    (outer : Chains p g chain chain') : Chains p (Nat.succ ∘ g) chain (inner :: chain')

section
variable {g : Nat → Nat} {chain chain' : Frames} (chains : p.Chains g chain chain')
include chains

theorem Chains.getElem?_eq (d : Nat) : chain'[g d]? = chain[d]?.map p.place := by
  induction chains generalizing d with
  | nil => rfl
  | frame _ _ ih =>
    cases d with
    | zero => rfl
    | succ d => exact ih d
  | extra _ _ ih => exact ih d

/-- What is found in a frame of the first machine is found in its place, if the frames between have nothing. -/
theorem Chains.find?_eq {found found' : FrameId → Bool} (same : ∀ id, found' (p.place id) = found id)
    (nothing : ∀ id, p.Unplaced id → found' id = false) : chain'.find? found' = (chain.find? found).map p.place := by
  induction chains with
  | nil => rfl
  | frame inner _ ih =>
    rw [List.find?_cons, List.find?_cons, same]
    cases found inner with
    | true => rfl
    | false => exact ih
  | extra unplaced _ ih => rw [List.find?_cons, nothing _ unplaced, ih]

/-- Where depth zero stays, the innermost frame is the place of the innermost frame, if there is one. -/
theorem Chains.head_cases (here : g 0 = 0) :
    (chain = [] ∧ chain' = []) ∨ ∃ inner outer outer', chain = inner :: outer ∧ chain' = p.place inner :: outer' := by
  cases chains with
  | nil => exact .inl ⟨rfl, rfl⟩
  | frame inner => exact .inr ⟨inner, _, _, rfl, rfl⟩
  | extra => exact absurd here (Nat.succ_ne_zero _)

end

/-! ### Values -/

/-- Functions that are made in such frames. The scopes that come between are the same. -/
structure Closures (p : Placement) (between : (Nat → Nat) → Nat → Nat) (f f' : Closure) : Prop where
  id : f'.id = f.id
  isInitializer : f'.isInitializer = f.isInitializer
  code : ∃ g, p.Chains g f.frames f'.frames ∧ FunDecl.Shifted (between g) f.decl f'.decl ∧
    (f.isInitializer = true → between g 0 = 0)

/-- Methods are run in a frame of their own with their object, inside the frames that they were made in. -/
inductive Methods (p : Placement) : Method → Method → Prop
  | closure {f f' : Closure} (alike : p.Closures under f f') : Methods p (.closure f) (.closure f')
  | builtin (b : Builtin) : Methods p (.builtin b) (.builtin b)

inductive Classes (p : Placement) : Class → Class → Prop
  | mk (id : Nat) (name : String) {base base' metaclass metaclass' : Option Class}
    {methods methods' : Bindings Method} (bases : Option.Rel (Classes p) base base')
    (owners : Option.Rel (Classes p) metaclass metaclass') (members : methods.Paired p.Methods methods') :
    Classes p ⟨id, name, base, metaclass, methods⟩ ⟨id, name, base', metaclass', methods'⟩

structure Traits (p : Placement) (t t' : Trait) : Prop where
  id : t'.id = t.id
  name : t'.name = t.name
  methods : t.methods.Paired (p.Closures under) t'.methods

inductive Values (p : Placement) : Value → Value → Prop
  | nil : Values p .nil .nil
  | bool (value : Bool) : Values p (.bool value) (.bool value)
  | number (value : Float) : Values p (.number value) (.number value)
  | string (value : String) : Values p (.string value) (.string value)
  | array (id : Nat) : Values p (.array id) (.array id)
  | object (id : Nat) {madeBy madeBy' : Option Class} (alike : Option.Rel p.Classes madeBy madeBy') :
    Values p (.object ⟨id, madeBy⟩) (.object ⟨id, madeBy'⟩)
  | classObject {c c' : Class} (alike : p.Classes c c') : Values p (.classObject c) (.classObject c')
  | function {f f' : Closure} (alike : p.Closures id f f') : Values p (.function f) (.function f')
  | trait {t t' : Trait} (alike : p.Traits t t') : Values p (.trait t) (.trait t')
  | builtin (b : Builtin) : Values p (.builtin b) (.builtin b)
  | arrayFunction (id : Nat) (access : ArrayAccess) (array : Nat) :
    Values p (.arrayFunction id access array) (.arrayFunction id access array)

abbrev AllValues (p : Placement) : List Value → List Value → Prop := List.Forall₂ p.Values

/-! ### Machines -/

/-- Machines that hold related values, the second with some more frames. New frames are placed side by side. -/
structure Machines (p : Placement) (g : Nat → Nat) (m m' : Machine) : Prop where
  frames : ∀ id, (m.frame id).Paired p.Values (m'.frame (p.place id))
  unplaced : ∀ id, p.Unplaced id → m'.frame id = .empty
  new : ∀ n, p.place (m.frames.size + n) = m'.frames.size + n
  scope : p.Chains g m.scope m'.scope
  objects : m'.fields.size = m.fields.size
  fields : ∀ id, (m.fieldsOf id).Paired p.Values (m'.fieldsOf id)
  arrays : m'.arrays.size = m.arrays.size
  elements : ∀ id, p.AllValues (m.elements id).toList (m'.elements id).toList
  fresh : m'.fresh = m.fresh
  printed : m'.printed = m.printed
  clock : m'.clock = m.clock
  dice : m'.dice = m.dice

variable {g : Nat → Nat} {m m' : Machine}

theorem Machines.rescope (pair : p.Machines g m m') {h : Nat → Nat} {chain chain' : Frames}
    (chains : p.Chains h chain chain') : p.Machines h { m with scope := chain } { m' with scope := chain' } :=
  { pair with scope := chains }

theorem Machines.place_size (pair : p.Machines g m m') : p.place m.frames.size = m'.frames.size := pair.new 0

theorem Machines.place_lt_iff (pair : p.Machines g m m') (id : FrameId) :
    p.place id < m'.frames.size ↔ id < m.frames.size := by
  constructor
  · intro inside
    by_contra outside
    have beyond := pair.new (id - m.frames.size)
    rw [Nat.add_sub_cancel' (Nat.le_of_not_lt outside)] at beyond
    rw [beyond] at inside
    exact Nat.not_lt_of_le (Nat.le_add_right _ _) inside
  · intro inside
    by_contra outside
    have beyond := pair.new (p.place id - m'.frames.size)
    rw [Nat.add_sub_cancel' (Nat.le_of_not_lt outside)] at beyond
    rw [← p.injective beyond] at inside
    exact Nat.not_lt_of_le (Nat.le_add_right _ _) inside

theorem Machines.lt_of_unplaced (pair : p.Machines g m m') {id : FrameId} (unplaced : p.Unplaced id) :
    id < m'.frames.size := by
  by_contra outside
  have beyond := pair.new (id - m'.frames.size)
  rw [Nat.add_sub_cancel' (Nat.le_of_not_lt outside)] at beyond
  exact unplaced _ beyond

theorem Machines.bind (pair : p.Machines g m m') (id : FrameId) (name : String) (alike : p.Values value value') :
    p.Machines g (m.bind id name value) (m'.bind (p.place id) name value') := by
  have bound : ∀ other, ((m.bind id name value).frame other).Paired p.Values
      ((m'.bind (p.place id) name value').frame (p.place other)) := by
    intro other
    by_cases same : other = id
    · subst same
      by_cases inside : other < m.frames.size
      · rw [Machine.frame_bind_self inside, Machine.frame_bind_self ((pair.place_lt_iff other).mpr inside)]
        exact (pair.frames other).put name alike
      · have outside : ¬ p.place other < m'.frames.size := fun inside' => inside ((pair.place_lt_iff other).mp inside')
        simpa [Machine.frame, Machine.bind, inside, outside] using Bindings.alike_empty
    · rw [Machine.frame_bind_of_ne same, Machine.frame_bind_of_ne fun equal => same (p.injective equal)]
      exact pair.frames other
  have unplaced : ∀ other, p.Unplaced other → (m'.bind (p.place id) name value').frame other = .empty := by
    intro other isUnplaced
    rw [Machine.frame_bind_of_ne (isUnplaced id).symm]
    exact pair.unplaced other isUnplaced
  exact { pair with
    frames := bound
    unplaced := unplaced
    new := fun n => by rw [Machine.size_bind, Machine.size_bind, pair.new] }

theorem frame_push (m : Machine) (b : Bindings Value) (id : FrameId) :
    Machine.frame { m with frames := m.frames.push b } id = if id = m.frames.size then b else m.frame id := by
  simp only [Machine.frame, Array.getElem?_push]
  split <;> rfl

theorem Machines.addFrame (pair : p.Machines g m m') {b b' : Bindings Value} (alike : b.Paired p.Values b') :
    p.Machines g { m with frames := m.frames.push b } { m' with frames := m'.frames.push b' } := by
  have pushed : ∀ id, (Machine.frame { m with frames := m.frames.push b } id).Paired p.Values
      (Machine.frame { m' with frames := m'.frames.push b' } (p.place id)) := by
    intro id
    rw [frame_push, frame_push, ← pair.place_size]
    by_cases same : id = m.frames.size
    · simpa only [same, if_true] using alike
    · simpa only [if_neg same, if_neg fun equal => same (p.injective equal)] using pair.frames id
  have unplaced : ∀ id, p.Unplaced id → Machine.frame { m' with frames := m'.frames.push b' } id = .empty := by
    intro id isUnplaced
    rw [frame_push, if_neg (pair.lt_of_unplaced isUnplaced).ne]
    exact pair.unplaced id isUnplaced
  exact { pair with
    frames := pushed
    unplaced := unplaced
    new := fun n => by
      rw [Array.size_push, Array.size_push, Nat.add_assoc, Nat.add_assoc]
      exact pair.new (1 + n) }

theorem Machines.addObject (pair : p.Machines g m m') :
    p.Machines g { m with fields := m.fields.push .empty } { m' with fields := m'.fields.push .empty } :=
  { pair with
    objects := by simp [pair.objects]
    fields := rel_push pair.objects pair.fields Bindings.alike_empty }

theorem Machines.setField (pair : p.Machines g m m') (id : Nat) (name : String) (alike : p.Values value value') :
    p.Machines g { m with fields := m.fields.modify id (·.put name value) }
      { m' with fields := m'.fields.modify id (·.put name value') } :=
  { pair with
    objects := by simp [pair.objects]
    fields := rel_modify pair.objects pair.fields id fun _ _ old => Bindings.Paired.put old name alike }

theorem Machines.addArray (pair : p.Machines g m m') {elements elements' : Array Value}
    (alike : p.AllValues elements.toList elements'.toList) :
    p.Machines g { m with arrays := m.arrays.push elements } { m' with arrays := m'.arrays.push elements' } :=
  { pair with
    arrays := by simp [pair.arrays]
    elements := rel_push (B := fun _ xs ys => p.AllValues xs.toList ys.toList) pair.arrays pair.elements alike }

theorem Machines.setElement (pair : p.Machines g m m') (id cell : Nat) (alike : p.Values value value') :
    p.Machines g { m with arrays := m.arrays.modify id (·.setIfInBounds cell value) }
      { m' with arrays := m'.arrays.modify id (·.setIfInBounds cell value') } :=
  { pair with
    arrays := by simp [pair.arrays]
    elements := rel_modify (B := fun _ xs ys => p.AllValues xs.toList ys.toList) pair.arrays pair.elements id
      fun _ _ old => forall₂_setIfInBounds old cell alike }

/-! ### What related values have in common -/

/-- Related classes find related methods, by recursion on the classes that they extend. -/
theorem Classes.findMethod? (name : String) :
    ∀ {c c' : Class}, p.Classes c c' → Option.Rel p.Methods (c.findMethod? name) (c'.findMethod? name)
  | ⟨_, _, none, _, _⟩, _, alike => by
    cases alike with
    | mk _ _ bases _ members =>
      cases bases
      exact members.get? name
  | ⟨_, _, some base, _, _⟩, _, alike => by
    cases alike with
    | mk _ _ bases _ members =>
      cases bases with
      | some related => exact Layout.rel_or (members.get? name) (related.findMethod? name)

theorem Classes.id_eq {c c' : Class} (alike : p.Classes c c') : c'.id = c.id := by cases alike; rfl

theorem Classes.name_eq {c c' : Class} (alike : p.Classes c c') : c'.name = c.name := by cases alike; rfl

theorem Classes.metaclass {c c' : Class} (alike : p.Classes c c') : Option.Rel p.Classes c.metaclass c'.metaclass := by
  cases alike with
  | mk _ _ _ owners => exact owners

theorem Closures.arity_eq (alike : p.Closures between f f') : f'.decl.arity = f.decl.arity := by
  obtain ⟨_, _, shifted, _⟩ := alike.code
  exact shifted.arity_eq

theorem Closures.isGetter_eq (alike : p.Closures between f f') : f'.decl.isGetter = f.decl.isGetter := by
  obtain ⟨_, _, shifted, _⟩ := alike.code
  exact shifted.isGetter_eq

theorem Closures.name_eq (alike : p.Closures between f f') : f'.decl.name = f.decl.name := by
  obtain ⟨_, _, shifted, _⟩ := alike.code
  exact shifted.name_eq

/-! ### A machine by itself -/

/-- Every frame is in its own place. -/
def identity : Placement := ⟨id, Function.injective_id, rfl⟩

theorem chains_identity : ∀ chain : Frames, identity.Chains id chain chain
  | [] => .nil
  | inner :: outer => by
    have chains : identity.Chains (under id) (inner :: outer) (inner :: outer) := .frame inner (chains_identity outer)
    rwa [under_id] at chains

theorem closures_identity (same : between id = id) (f : Closure) : identity.Closures between f f :=
  ⟨rfl, rfl, id, chains_identity f.frames, same.symm ▸ FunDecl.shifted_refl f.decl, fun _ => by rw [same, id]⟩

theorem methods_identity (method : Method) : identity.Methods method method := by
  cases method with
  | closure f => exact .closure (closures_identity under_id f)
  | builtin b => exact .builtin b

theorem paired_refl {α : Type} {R : α → α → Prop} (related : ∀ a, R a a) (b : Bindings α) : b.Paired R b := by
  simp only [Bindings.Alike, List.forall₂_same]
  exact fun entry _ => ⟨rfl, related entry.2⟩

theorem classes_identity : ∀ c : Class, identity.Classes c c
  | ⟨id, name, superclass, metaclass, methods⟩ => by
    refine .mk id name ?_ ?_ (paired_refl methods_identity methods)
    · cases superclass with
      | none => exact .none
      | some base => exact .some (classes_identity base)
    · cases metaclass with
      | none => exact .none
      | some own => exact .some (classes_identity own)

theorem values_identity (value : Value) : identity.Values value value := by
  cases value with
  | nil | bool | number | string | array | builtin | arrayFunction => constructor
  | object o =>
    obtain ⟨id, madeBy⟩ := o
    cases madeBy with
    | none => exact .object id .none
    | some c => exact .object id (.some (classes_identity c))
  | classObject c => exact .classObject (classes_identity c)
  | function f => exact .function (closures_identity rfl f)
  | trait t => exact .trait ⟨rfl, rfl, paired_refl (closures_identity under_id) t.methods⟩

theorem machines_identity (m : Machine) : identity.Machines id m m where
  frames id := paired_refl values_identity (m.frame id)
  unplaced id unplaced := absurd rfl (unplaced id)
  new _ := rfl
  scope := chains_identity m.scope
  objects := rfl
  fields id := paired_refl values_identity (m.fieldsOf id)
  arrays := rfl
  elements _ := List.forall₂_same.mpr fun value _ => values_identity value
  fresh := rfl
  printed := rfl
  clock := rfl
  dice := rfl

/-! ### One more frame in the second machine -/

/-- The frames from a number on move up by one. -/
def insert (p : Placement) (size size' : Nat) (new : ∀ n, p.place (size + n) = size' + n) (globals : 0 < size) :
    Placement where
  place id := if id < size then p.place id else p.place id + 1
  injective := by
    have beyond : ∀ id, ¬ id < size → p.place id + 1 = p.place (id + 1) := by
      intro id outside
      have here := new (id - size)
      have next := new (id - size + 1)
      rw [← Nat.add_assoc] at next
      rw [Nat.add_sub_cancel' (Nat.le_of_not_lt outside)] at here next
      rw [here, next, Nat.add_assoc]
    intro id other same
    by_cases inside : id < size <;> by_cases inside' : other < size <;>
      simp only [inside, inside', if_true, if_false] at same
    · exact p.injective same
    · rw [beyond other inside'] at same
      rw [show id = other + 1 from p.injective same] at inside
      exact absurd (Nat.lt_of_succ_lt inside) inside'
    · rw [beyond id inside] at same
      rw [show other = id + 1 from (p.injective same).symm] at inside'
      exact absurd (Nat.lt_of_succ_lt inside') inside
    · exact p.injective (Nat.succ.inj same)
  globals := by rw [if_pos globals, p.globals]

/-- The second placement is the same for the frames of interest, and leaves places empty that were. -/
structure Agrees (p q : Placement) (inside : FrameId → Prop) : Prop where
  place : ∀ id, inside id → q.place id = p.place id
  unplaced : ∀ id, p.Unplaced id → q.Unplaced id

theorem paired_move {α β : Type} {R S : α → β → Prop} {b : Bindings α} {b' : Bindings β} (paired : b.Paired R b')
    (move : ∀ name a a', (name, a) ∈ b.entries → R a a' → S a a') : b.Paired S b' := by
  obtain ⟨entries⟩ := b
  obtain ⟨entries'⟩ := b'
  simp only [Bindings.Alike] at paired ⊢
  induction paired with
  | nil => exact .nil
  | @cons entry entry' rest rest' both _ ih =>
    refine .cons ⟨both.1, move entry.1 entry.2 entry'.2 List.mem_cons_self both.2⟩ (ih ?_)
    exact fun name a a' member => move name a a' (List.mem_cons_of_mem _ member)

section
variable {q : Placement} {inside : FrameId → Prop} (agrees : p.Agrees q inside)
include agrees

theorem Chains.move {chain chain' : Frames} (chains : p.Chains g chain chain') (known : ∀ id ∈ chain, inside id) :
    q.Chains g chain chain' := by
  induction chains with
  | nil => exact .nil
  | frame inner _ ih =>
    rw [← agrees.place inner (known inner List.mem_cons_self)]
    exact .frame inner (ih fun id member => known id (List.mem_cons_of_mem _ member))
  | extra unplaced _ ih => exact .extra (agrees.unplaced _ unplaced) (ih known)

theorem Closures.move (alike : p.Closures between f f') (known : ∀ id ∈ f.frames, inside id) :
    q.Closures between f f' := by
  obtain ⟨number, isInitializer, g, chains, shifted, object⟩ := alike
  exact ⟨number, isInitializer, g, chains.move agrees known, shifted, object⟩

theorem Classes.move : ∀ {c c' : Class}, p.Classes c c' →
    (∀ d, c.Behind d → ∀ name f, (name, Method.closure f) ∈ d.methods.entries → ∀ id ∈ f.frames, inside id) →
    q.Classes c c'
  | ⟨id, name, _, _, _⟩, _, alike, known => by
    cases alike with
    | mk _ _ bases owners members =>
      refine .mk id name ?_ ?_ (paired_move members ?_)
      · cases bases with
        | none => exact .none
        | some related => exact .some (related.move fun d behind => known d (.superclass rfl behind))
      · cases owners with
        | none => exact .none
        | some related => exact .some (related.move fun d behind => known d (.metaclass rfl behind))
      · intro name method method' member methods
        cases methods with
        | builtin b => exact .builtin b
        | closure alike => exact .closure (alike.move agrees (known _ (.self _) name _ member))

theorem Values.move (alike : p.Values value value') (known : ∀ f, value.HasClosure f → ∀ id ∈ f.frames, inside id) :
    q.Values value value' := by
  cases alike with
  | object id alike =>
    cases alike with
    | none => exact .object id .none
    | some related =>
      exact .object id (.some (related.move agrees fun d behind name f member => known f (.method (.object behind) member)))
  | classObject related =>
    exact .classObject (related.move agrees fun d behind name f member => known f (.method (.classObject behind) member))
  | function related => exact .function (related.move agrees (known _ (.function _)))
  | trait related =>
    have methods := paired_move related.methods fun name f f' member closures =>
      Closures.move agrees closures (known f (.traitMethod member))
    exact .trait ⟨related.id, related.name, methods⟩
  | nil | bool | number | string | array | builtin | arrayFunction => constructor

end

theorem forall₂_move {α β : Type} {R S : α → β → Prop} {xs : List α} {ys : List β} (all : List.Forall₂ R xs ys)
    (move : ∀ x y, x ∈ xs → R x y → S x y) : List.Forall₂ S xs ys := by
  induction all with
  | nil => exact .nil
  | cons first _ ih =>
    exact .cons (move _ _ List.mem_cons_self first) (ih fun x y member => move x y (List.mem_cons_of_mem _ member))

theorem Machines.agrees_insert (pair : p.Machines g m m') (globals : 0 < m.frames.size) :
    p.Agrees (p.insert _ _ pair.new globals) (· < m.frames.size) where
  place id inside := if_pos inside
  unplaced id unplaced other same := by
    by_cases inside : other < m.frames.size
    · simp only [Placement.insert, if_pos inside] at same
      exact unplaced other same
    · simp only [Placement.insert, if_neg inside] at same
      have before := pair.lt_of_unplaced unplaced
      rw [← same] at before
      exact inside ((pair.place_lt_iff other).mp (Nat.lt_of_succ_lt before))

section
variable (pair : p.Machines g m m') (globals : 0 < m.frames.size)

theorem Machines.unplaced_insert : (p.insert _ _ pair.new globals).Unplaced m'.frames.size := by
  intro id same
  by_cases inside : id < m.frames.size
  · rw [(pair.agrees_insert globals).place id inside] at same
    exact absurd ((pair.place_lt_iff id).mpr inside) (same ▸ Nat.lt_irrefl _)
  · simp only [Placement.insert, if_neg inside] at same
    exact inside ((pair.place_lt_iff id).mp (same ▸ Nat.lt_succ_self _))

/-- Nothing is bound in the frames that are nobody's place. -/
theorem Machines.frame_unplaced_insert {id : FrameId} (unplaced : (p.insert _ _ pair.new globals).Unplaced id) :
    Machine.frame { m' with frames := m'.frames.push .empty } id = .empty := by
  rw [frame_push]
  split
  · rfl
  · by_cases wasUnplaced : p.Unplaced id
    · exact pair.unplaced id wasUnplaced
    · simp only [Unplaced, not_forall, not_not] at wasUnplaced
      obtain ⟨other, rfl⟩ := wasUnplaced
      have outside : ¬ other < m.frames.size := fun inside =>
        unplaced other ((pair.agrees_insert globals).place other inside)
      have beyond : ¬ p.place other < m'.frames.size := fun before => outside ((pair.place_lt_iff other).mp before)
      simp [Machine.frame, beyond]

/-- The frames that the first machine has are where they were, and no others have bindings. -/
theorem Machines.frames_insert
    (values : ∀ value value', m.Keeps value → p.Values value value' →
      (p.insert _ _ pair.new globals).Values value value') (id : FrameId) :
    (m.frame id).Paired (p.insert _ _ pair.new globals).Values
      (Machine.frame { m' with frames := m'.frames.push .empty } ((p.insert _ _ pair.new globals).place id)) := by
  by_cases inside : id < m.frames.size
  · rw [(pair.agrees_insert globals).place id inside, frame_push, if_neg ((pair.place_lt_iff id).mpr inside).ne]
    exact paired_move (pair.frames id) fun name value value' member => values value value' (.binding member)
  · have outside : ¬ p.place id < m'.frames.size := fun before => inside ((pair.place_lt_iff id).mp before)
    have beyond : ¬ p.place id + 1 < m'.frames.size := fun before => outside (Nat.lt_of_succ_lt before)
    have other : p.place id + 1 ≠ m'.frames.size := fun same => outside (same ▸ Nat.lt_succ_self _)
    have nothing : m.frame id = .empty := by simp [Machine.frame, inside]
    have nothing' : m'.frame (p.place id + 1) = .empty := by simp [Machine.frame, beyond]
    simp only [Placement.insert, if_neg inside]
    rw [frame_push, if_neg other, nothing, nothing']
    exact Bindings.alike_empty

/-- All functions of the first machine are made in frames that it has. Then a frame that is put in sight in the second
machine is nobody's place, and new frames are placed behind it. -/
theorem Machines.insert (inSight : ∀ id ∈ m.scope, id < m.frames.size)
    (closures : ∀ value, m.Keeps value → ∀ f, value.HasClosure f → ∀ id ∈ f.frames, id < m.frames.size) :
    (p.insert _ _ pair.new globals).Machines (Nat.succ ∘ g) m
      { m' with frames := m'.frames.push .empty, scope := m'.frames.size :: m'.scope } := by
  have agrees := pair.agrees_insert globals
  have values : ∀ value value', m.Keeps value → p.Values value value' →
      (p.insert _ _ pair.new globals).Values value value' := fun value value' keeps alike =>
    alike.move agrees (closures value keeps)
  exact {
    frames := pair.frames_insert globals values
    unplaced := fun id => pair.frame_unplaced_insert globals
    new := fun n => by
      have outside : ¬ m.frames.size + n < m.frames.size := Nat.not_lt_of_le (Nat.le_add_right _ _)
      simp only [Placement.insert, if_neg outside, pair.new, Array.size_push]
      exact Nat.add_right_comm _ _ _
    scope := .extra (pair.unplaced_insert globals) (pair.scope.move agrees inSight)
    objects := pair.objects
    fields := fun id => paired_move (pair.fields id) fun name value value' member =>
      values value value' (.field member)
    arrays := pair.arrays
    elements := fun id => forall₂_move (pair.elements id) fun value value' member =>
      values value value' (.element member)
    fresh := pair.fresh
    printed := pair.printed
    clock := pair.clock
    dice := pair.dice }

end

end Placement

end LoxLang
