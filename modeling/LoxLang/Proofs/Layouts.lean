import LoxLang.Proofs.Renaming

/-!
Machines that differ in the names of local variables. A layout says what two such machines have in common: the frames
around every frame, with the renaming of its names, and the classes among their objects. It only grows, so what is
related by it stays related.
-/

namespace LoxLang

variable {chain outer : Frames} {c c' : Class} {value value' : Value}

/-! ### Names bound alike -/

namespace Bindings

variable {α β : Type}

/-- The names are bound in the same order, each replaced, and to related values. -/
def Alike (f : String → String) (R : α → β → Prop) (b : Bindings α) (b' : Bindings β) : Prop :=
  List.Forall₂ (fun entry entry' => entry'.1 = f entry.1 ∧ R entry.2 entry'.2) b.entries b'.entries

variable {f : String → String} {R : α → β → Prop} {b : Bindings α} {b' : Bindings β}

theorem alike_empty : (empty : Bindings α).Alike f R (empty : Bindings β) := .nil

theorem Alike.imp {Q : α → β → Prop} (alike : b.Alike f R b') (weaker : ∀ a a', R a a' → Q a a') : b.Alike f Q b' :=
  List.Forall₂.imp (fun _ _ both => ⟨both.1, weaker _ _ both.2⟩) alike

theorem Alike.left {Q : α → α → Prop} (alike : b.Alike f R b') (weaker : ∀ a a', R a a' → Q a a) :
    b.Alike (1 : Renaming) Q b := by
  have entries : ∀ {es : List (String × α)} {es' : List (String × β)},
      List.Forall₂ (fun entry entry' => entry'.1 = f entry.1 ∧ R entry.2 entry'.2) es es' →
      List.Forall₂ (fun entry entry' : String × α => entry'.1 = (1 : Renaming) entry.1 ∧ Q entry.2 entry'.2) es es := by
    intro es es' all
    induction all with
    | nil => exact .nil
    | cons both _ ih => exact .cons ⟨rfl, weaker _ _ both.2⟩ ih
  exact entries alike

theorem Alike.get? (inj : Function.Injective f) (alike : b.Alike f R b') (name : String) :
    Option.Rel R (b.get? name) (b'.get? (f name)) := by
  obtain ⟨entries⟩ := b
  obtain ⟨entries'⟩ := b'
  simp only [Alike, Bindings.get?] at alike ⊢
  induction alike with
  | nil => exact .none
  | @cons entry entry' rest rest' both _ ih =>
    obtain ⟨key, value⟩ := entry
    obtain ⟨key', value'⟩ := entry'
    obtain ⟨rfl, related⟩ := both
    simp only [List.lookup_cons]
    by_cases same : name = key
    · subst same
      simpa using Option.Rel.some related
    · have apart : f name ≠ f key := fun equal => same (inj equal)
      rwa [beq_false_of_ne same, beq_false_of_ne apart]

theorem isSome_eq_of_rel {found : Option α} {found' : Option β} (related : Option.Rel R found found') :
    found'.isSome = found.isSome := by
  cases related <;> rfl

theorem Alike.contains (inj : Function.Injective f) (alike : b.Alike f R b') (name : String) :
    b'.contains (f name) = b.contains name := isSome_eq_of_rel (alike.get? inj name)

theorem Alike.put (inj : Function.Injective f) (alike : b.Alike f R b') (name : String) {value : α} {value' : β}
    (related : R value value') : (b.put name value).Alike f R (b'.put (f name) value') := by
  obtain ⟨entries⟩ := b
  obtain ⟨entries'⟩ := b'
  simp only [Alike, Bindings.put] at alike ⊢
  induction alike with
  | nil => exact .cons ⟨rfl, related⟩ .nil
  | @cons entry entry' rest rest' both others ih =>
    obtain ⟨key, old⟩ := entry
    obtain ⟨key', old'⟩ := entry'
    obtain ⟨rfl, both⟩ := both
    simp only [putEntry]
    by_cases same : name = key
    · subst same
      rw [if_pos (beq_self_eq_true _), if_pos (beq_self_eq_true _)]
      exact .cons ⟨rfl, related⟩ others
    · have apart : f name ≠ f key := fun equal => same (inj equal)
      rw [if_neg (by simpa using same), if_neg (by simpa using apart)]
      exact .cons ⟨rfl, both⟩ ih

theorem Alike.putAll (inj : Function.Injective f) {entries : List (String × α)} {entries' : List (String × β)}
    (all : List.Forall₂ (fun entry entry' => entry'.1 = f entry.1 ∧ R entry.2 entry'.2) entries entries')
    (alike : b.Alike f R b') : (b.putAll entries).Alike f R (b'.putAll entries') := by
  induction all generalizing b b' with
  | nil => exact alike
  | @cons entry entry' rest rest' both _ ih =>
    have first := alike.put inj entry.1 both.2
    rw [← both.1] at first
    exact ih first

theorem alike_putAll_zip (inj : Function.Injective f) (names : List String) {values : List α} {values' : List β}
    (related : List.Forall₂ R values values') :
    ((empty : Bindings α).putAll (names.zip values)).Alike f R
      ((empty : Bindings β).putAll ((names.map f).zip values')) := by
  refine Alike.putAll inj ?_ alike_empty
  induction related generalizing names with
  | nil => simp
  | cons first _ ih =>
    cases names with
    | nil => exact .nil
    | cons _ rest => exact .cons ⟨rfl, first⟩ (ih rest)

abbrev Paired (R : α → β → Prop) (b : Bindings α) (b' : Bindings β) : Prop := b.Alike id R b'

theorem Paired.get? (paired : b.Paired R b') (name : String) : Option.Rel R (b.get? name) (b'.get? name) :=
  Alike.get? Function.injective_id paired name

theorem Paired.contains (paired : b.Paired R b') (name : String) : b'.contains name = b.contains name :=
  Alike.contains Function.injective_id paired name

theorem Paired.put (paired : b.Paired R b') (name : String) {value : α} {value' : β} (related : R value value') :
    (b.put name value).Paired R (b'.put name value') := Alike.put Function.injective_id paired name related

end Bindings

/-! ### Layouts -/

structure Label where
  outer : Frames
  names : Renaming

/-- What two machines have in common: their frames, and the classes among their objects. -/
structure Layout where
  frames : List Label
  classes : List (Option (Class × Class))

namespace Layout

instance : Preorder Layout where
  le l l' := l.frames <+: l'.frames ∧ l.classes <+: l'.classes
  le_refl _ := ⟨List.prefix_rfl, List.prefix_rfl⟩
  le_trans _ _ _ first second := ⟨first.1.trans second.1, first.2.trans second.2⟩

def naming (l : Layout) (id : FrameId) : Renaming := (l.frames[id]?.map Label.names).getD 1

/-- The renamings of the frames that are in sight. -/
def namings (l : Layout) (chain : Frames) : List Renaming := chain.map l.naming

/-- A chain of frames is that of its first frame: it goes on with the frames around that one, which are older, and ends
with the global frame, whose names stay. -/
inductive Chain (l : Layout) : Frames → Prop
  | globals (made : l.frames[0]? = some ⟨[], 1⟩) : Chain l globalFrames
  | frame {id : FrameId} {outer : Frames} {π : Renaming} (made : l.frames[id]? = some ⟨outer, π⟩)
    (older : ∀ other ∈ outer, other < id) (around : Chain l outer) : Chain l (id :: outer)

variable {l l' : Layout}

theorem getElem?_mono {α : Type} {xs ys : List α} (isPrefix : xs <+: ys) {i : Nat} {x : α}
    (found : xs[i]? = some x) : ys[i]? = some x := by
  obtain ⟨more, rfl⟩ := isPrefix
  rwa [List.getElem?_append_left (List.getElem?_eq_some_iff.mp found).1]

theorem Chain.mono (later : l ≤ l') (isChain : l.Chain chain) : l'.Chain chain := by
  induction isChain with
  | globals made => exact .globals (getElem?_mono later.1 made)
  | frame made older _ ih => exact .frame (getElem?_mono later.1 made) older ih

theorem Chain.exists_label (isChain : l.Chain chain) : ∀ id ∈ chain, ∃ label, l.frames[id]? = some label := by
  induction isChain with
  | globals made => simpa [globalFrames] using ⟨_, made⟩
  | frame made _ _ ih => simpa using ⟨⟨_, made⟩, ih⟩

theorem Chain.lt_length (isChain : l.Chain chain) : ∀ id ∈ chain, id < l.frames.length := by
  intro id member
  obtain ⟨label, made⟩ := isChain.exists_label id member
  exact (List.getElem?_eq_some_iff.mp made).1

theorem Chain.naming_zero (isChain : l.Chain chain) : l.naming 0 = 1 := by
  induction isChain with
  | globals made => rw [naming, made, Option.map_some, Option.getD_some]
  | frame _ _ _ ih => exact ih

theorem Chain.naming_eq (later : l ≤ l') (isChain : l.Chain chain) {id : FrameId} (member : id ∈ chain) :
    l'.naming id = l.naming id := by
  obtain ⟨label, made⟩ := isChain.exists_label id member
  rw [naming, naming, made, getElem?_mono later.1 made]

theorem Chain.namings_eq (later : l ≤ l') (isChain : l.Chain chain) :
    l'.namings chain = l.namings chain := List.map_congr_left fun _ => isChain.naming_eq later

theorem Chain.ne_nil (isChain : l.Chain chain) : chain ≠ [] := by
  cases isChain <;> exact List.cons_ne_nil _ _

/-! ### Values that are related -/

/-- Functions that differ in the names of local variables, and are made in the same frames. The scopes that come between
are renamed as well. -/
structure Closures (l : Layout) (between : List Renaming) (f f' : Closure) : Prop where
  id : f'.id = f.id
  frames : f'.frames = f.frames
  isInitializer : f'.isInitializer = f.isInitializer
  chain : l.Chain f.frames
  decl : FunDecl.Renamed Renaming.Proper (between ++ l.namings f.frames) f.decl f'.decl

/-- Methods are run in a frame of their own with their object, inside the frames that they were made in. -/
inductive Methods (l : Layout) : Method → Method → Prop
  | closure {f f' : Closure} (alike : l.Closures [1] f f') : Methods l (.closure f) (.closure f')
  | builtin (b : Builtin) : Methods l (.builtin b) (.builtin b)

def Classes (l : Layout) (c c' : Class) : Prop := l.classes[c.id]? = some (some (c, c'))

structure Traits (l : Layout) (t t' : Trait) : Prop where
  id : t'.id = t.id
  name : t'.name = t.name
  methods : t.methods.Alike (1 : Renaming) (l.Closures [1]) t'.methods

inductive Values (l : Layout) : Value → Value → Prop
  | nil : Values l .nil .nil
  | bool (value : Bool) : Values l (.bool value) (.bool value)
  | number (value : Float) : Values l (.number value) (.number value)
  | string (value : String) : Values l (.string value) (.string value)
  | array (id : Nat) : Values l (.array id) (.array id)
  | object (id : Nat) {madeBy madeBy' : Option Class} (alike : Option.Rel l.Classes madeBy madeBy') :
    Values l (.object ⟨id, madeBy⟩) (.object ⟨id, madeBy'⟩)
  | classObject {c c' : Class} (alike : l.Classes c c') : Values l (.classObject c) (.classObject c')
  | function {f f' : Closure} (alike : l.Closures [] f f') : Values l (.function f) (.function f')
  | trait {t t' : Trait} (alike : l.Traits t t') : Values l (.trait t) (.trait t')
  | builtin (b : Builtin) : Values l (.builtin b) (.builtin b)
  | arrayFunction (id : Nat) (access : ArrayAccess) (array : Nat) :
    Values l (.arrayFunction id access array) (.arrayFunction id access array)

/-- Two classes that can be listed under a number. The class that is extended is older. -/
structure Listed (l : Layout) (id : Nat) (c c' : Class) : Prop where
  id_left : c.id = id
  id_right : c'.id = id
  name : c'.name = c.name
  superclass : Option.Rel l.Classes c.superclass c'.superclass
  metaclass : Option.Rel l.Classes c.metaclass c'.metaclass
  older : ∀ base, c.superclass = some base → base.id < id
  methods : c.methods.Alike (1 : Renaming) l.Methods c'.methods

section
variable (later : l ≤ l')
include later

theorem Closures.mono {between : List Renaming} {f f' : Closure} (alike : l.Closures between f f') :
    l'.Closures between f f' := by
  obtain ⟨id, frames, isInitializer, chain, decl⟩ := alike
  refine ⟨id, frames, isInitializer, chain.mono later, ?_⟩
  rwa [chain.namings_eq later]

theorem Methods.mono {method method' : Method} (alike : l.Methods method method') : l'.Methods method method' := by
  cases alike with
  | closure alike => exact .closure (alike.mono later)
  | builtin b => exact .builtin b

theorem Classes.mono (alike : l.Classes c c') : l'.Classes c c' := getElem?_mono later.2 alike

theorem classes_option_mono {c c' : Option Class} (alike : Option.Rel l.Classes c c') : Option.Rel l'.Classes c c' := by
  cases alike with
  | some alike => exact .some (Classes.mono later alike)
  | none => exact .none

theorem Traits.mono {t t' : Trait} (alike : l.Traits t t') : l'.Traits t t' :=
  ⟨alike.id, alike.name, alike.methods.imp fun _ _ => Closures.mono later⟩

theorem Values.mono (alike : l.Values value value') : l'.Values value value' := by
  cases alike with
  | object id alike => exact .object id (classes_option_mono later alike)
  | classObject alike => exact .classObject (Classes.mono later alike)
  | function alike => exact .function (alike.mono later)
  | trait alike => exact .trait (alike.mono later)
  | nil | bool | number | string | array | builtin | arrayFunction => constructor

theorem values_all_mono {values values' : List Value} (alike : List.Forall₂ l.Values values values') :
    List.Forall₂ l'.Values values values' := alike.imp fun _ _ => Values.mono later

theorem Listed.mono {id : Nat} (listed : l.Listed id c c') : l'.Listed id c c' where
  id_left := listed.id_left
  id_right := listed.id_right
  name := listed.name
  superclass := classes_option_mono later listed.superclass
  metaclass := classes_option_mono later listed.metaclass
  older := listed.older
  methods := listed.methods.imp fun _ _ => Methods.mono later

end

/-! ### Machines that are related -/

/-- Machines with the same frames, objects and arrays, in which related values are kept, local variables under names
that are renamed. -/
structure Machines (l : Layout) (m m' : Machine) : Prop where
  size_left : m.frames.size = l.frames.length
  size_right : m'.frames.size = l.frames.length
  frames : ∀ id, (m.frame id).Alike (l.naming id) l.Values (m'.frame id)
  proper : ∀ id, (l.naming id).Proper
  scope : m'.scope = m.scope
  inSight : l.Chain m.scope
  objects_left : m.fields.size = l.classes.length
  objects_right : m'.fields.size = l.classes.length
  fields : ∀ id, (m.fieldsOf id).Alike (1 : Renaming) l.Values (m'.fieldsOf id)
  classes : ∀ id c c', l.classes[id]? = some (some (c, c')) → l.Listed id c c'
  arrays : m'.arrays.size = m.arrays.size
  elements : ∀ id, List.Forall₂ l.Values (m.elements id).toList (m'.elements id).toList
  fresh : m'.fresh = m.fresh
  printed : m'.printed = m.printed
  clock : m'.clock = m.clock
  dice : m'.dice = m.dice

variable {m m' : Machine}

theorem Machines.rescope (pair : l.Machines m m') (isChain : l.Chain chain) :
    l.Machines { m with scope := chain } { m' with scope := chain } :=
  { pair with scope := rfl, inSight := isChain }

theorem Machines.bind (pair : l.Machines m m') (id : FrameId) (name : String) (alike : l.Values value value') :
    l.Machines (m.bind id name value) (m'.bind id (l.naming id name) value') :=
  { pair with
    size_left := (Machine.size_bind m id name value).trans pair.size_left
    size_right := (Machine.size_bind m' id _ value').trans pair.size_right
    frames := rel_modify (pair.size_right.trans pair.size_left.symm) pair.frames id fun _ _ old =>
      old.put (l.naming id).injective name alike }

def addFrame (l : Layout) (outer : Frames) (π : Renaming) : Layout := { l with frames := l.frames ++ [⟨outer, π⟩] }

theorem le_addFrame (l : Layout) (outer : Frames) (π : Renaming) : l ≤ l.addFrame outer π :=
  ⟨List.prefix_append _ _, List.prefix_rfl⟩

theorem naming_addFrame (l : Layout) (outer : Frames) (π : Renaming) (id : Nat) :
    (l.addFrame outer π).naming id = if id = l.frames.length then π else l.naming id := by
  simp only [naming, addFrame]
  by_cases inside : id < l.frames.length
  · rw [List.getElem?_append_left inside, if_neg (Nat.ne_of_lt inside)]
  · by_cases new : id = l.frames.length
    · simp [new]
    · have outside : (l.frames ++ [⟨outer, π⟩])[id]? = none := by
        simp only [List.getElem?_eq_none_iff, List.length_append, List.length_singleton]
        omega
      rw [outside, if_neg new, List.getElem?_eq_none (by omega)]

theorem Chain.addFrame (isChain : l.Chain outer) (π : Renaming) :
    (l.addFrame outer π).Chain (l.frames.length :: outer) := by
  have made : (l.addFrame outer π).frames[l.frames.length]? = some ⟨outer, π⟩ := by simp [Layout.addFrame]
  exact .frame made isChain.lt_length (isChain.mono (l.le_addFrame outer π))

theorem Chain.namings_addFrame (isChain : l.Chain outer) (π : Renaming) :
    (l.addFrame outer π).namings (l.frames.length :: outer) = π :: l.namings outer := by
  have old := isChain.namings_eq (l.le_addFrame outer π)
  rw [namings, List.map_cons, naming_addFrame, if_pos rfl, ← old, namings]

theorem Machines.addFrame (pair : l.Machines m m') (outer : Frames) {π : Renaming} (proper : π.Proper)
    {b b' : Bindings Value} (alike : b.Alike π l.Values b') :
    (l.addFrame outer π).Machines { m with frames := m.frames.push b } { m' with frames := m'.frames.push b' } := by
  have later := l.le_addFrame outer π
  have pushed : ∀ id,
      (Machine.frame { m with frames := m.frames.push b } id).Alike ((l.addFrame outer π).naming id)
        (l.addFrame outer π).Values (Machine.frame { m' with frames := m'.frames.push b' } id) := by
    intro id
    have old := (pair.frames id).imp fun _ _ => Values.mono later
    have new := alike.imp fun _ _ => Values.mono later
    simp only [Machine.frame, Array.getElem?_push, pair.size_left, pair.size_right] at old ⊢
    rw [naming_addFrame]
    by_cases same : id = l.frames.length
    · simpa only [if_pos same, Option.getD_some] using new
    · simpa only [if_neg same] using old
  have allProper : ∀ id, ((l.addFrame outer π).naming id).Proper := by
    intro id
    rw [naming_addFrame]
    split
    · exact proper
    · exact pair.proper id
  exact {
    size_left := by simp [Layout.addFrame, pair.size_left]
    size_right := by simp [Layout.addFrame, pair.size_right]
    frames := pushed
    proper := allProper
    scope := pair.scope
    inSight := pair.inSight.mono later
    objects_left := pair.objects_left
    objects_right := pair.objects_right
    fields := fun id => (pair.fields id).imp fun _ _ => Values.mono later
    classes := fun id c c' found => (pair.classes id c c' found).mono later
    arrays := pair.arrays
    elements := fun id => values_all_mono later (pair.elements id)
    fresh := pair.fresh
    printed := pair.printed
    clock := pair.clock
    dice := pair.dice }

def addObject (l : Layout) (isClass : Option (Class × Class)) : Layout := { l with classes := l.classes ++ [isClass] }

theorem le_addObject (l : Layout) (isClass : Option (Class × Class)) : l ≤ l.addObject isClass :=
  ⟨List.prefix_rfl, List.prefix_append _ _⟩

theorem classes_addObject (id : c.id = l.classes.length) : (l.addObject (some (c, c'))).Classes c c' := by
  rw [Classes, id]
  simp [addObject]

theorem Machines.addObject (pair : l.Machines m m') {isClass : Option (Class × Class)}
    (listed : ∀ c c', isClass = some (c, c') → l.Listed l.classes.length c c') :
    (l.addObject isClass).Machines { m with fields := m.fields.push .empty }
      { m' with fields := m'.fields.push .empty } := by
  have later := l.le_addObject isClass
  have fields : ∀ id,
      (Machine.fieldsOf { m with fields := m.fields.push .empty } id).Alike (1 : Renaming)
        (l.addObject isClass).Values (Machine.fieldsOf { m' with fields := m'.fields.push .empty } id) := by
    have old := fun id => (pair.fields id).imp fun _ _ => Values.mono later
    exact rel_push (pair.objects_right.trans pair.objects_left.symm) old Bindings.alike_empty
  have classes : ∀ id c c', (l.addObject isClass).classes[id]? = some (some (c, c')) →
      (l.addObject isClass).Listed id c c' := by
    intro id c c' found
    by_cases inside : id < l.classes.length
    · rw [Layout.addObject, List.getElem?_append_left inside] at found
      exact (pair.classes id c c' found).mono later
    · have bound := (List.getElem?_eq_some_iff.mp found).1
      obtain rfl : id = l.classes.length := by
        simp only [Layout.addObject, List.length_append, List.length_singleton] at bound
        omega
      exact (listed c c' (by simpa [Layout.addObject] using found)).mono later
  exact { pair with
    frames := fun id => (pair.frames id).imp fun _ _ => Values.mono later
    inSight := pair.inSight.mono later
    objects_left := by simp [Layout.addObject, pair.objects_left]
    objects_right := by simp [Layout.addObject, pair.objects_right]
    fields := fields
    classes := classes
    elements := fun id => values_all_mono later (pair.elements id) }

theorem Machines.setField (pair : l.Machines m m') (id : Nat) (name : String) (alike : l.Values value value') :
    l.Machines { m with fields := m.fields.modify id (·.put name value) }
      { m' with fields := m'.fields.modify id (·.put name value') } :=
  { pair with
    objects_left := by simp [pair.objects_left]
    objects_right := by simp [pair.objects_right]
    fields := rel_modify (pair.objects_right.trans pair.objects_left.symm) pair.fields id fun _ _ old =>
      old.put (1 : Renaming).injective name alike }

theorem Machines.addArray (pair : l.Machines m m') {elements elements' : Array Value}
    (alike : List.Forall₂ l.Values elements.toList elements'.toList) :
    l.Machines { m with arrays := m.arrays.push elements } { m' with arrays := m'.arrays.push elements' } :=
  { pair with
    arrays := by simp [pair.arrays]
    elements := rel_push (B := fun _ xs ys => List.Forall₂ l.Values xs.toList ys.toList) pair.arrays
      pair.elements alike }

theorem Machines.setElement (pair : l.Machines m m') (id cell : Nat) (alike : l.Values value value') :
    l.Machines { m with arrays := m.arrays.modify id (·.setIfInBounds cell value) }
      { m' with arrays := m'.arrays.modify id (·.setIfInBounds cell value') } :=
  { pair with
    arrays := by simp [pair.arrays]
    elements := rel_modify (B := fun _ xs ys => List.Forall₂ l.Values xs.toList ys.toList) pair.arrays
      pair.elements id fun _ _ old => forall₂_setIfInBounds old cell alike }

/-! ### What related values have in common -/

theorem Classes.listed (pair : l.Machines m m') (alike : l.Classes c c') : l.Listed c.id c c' :=
  pair.classes _ _ _ alike

theorem Machines.id_eq (pair : l.Machines m m') (alike : l.Classes c c') : c'.id = c.id :=
  (alike.listed pair).id_right

theorem rel_or {α β : Type} {R : α → β → Prop} {x y : Option α} {x' y' : Option β} (first : Option.Rel R x x')
    (second : Option.Rel R y y') : Option.Rel R (x.or y) (x'.or y') := by
  cases first with
  | some related => exact .some related
  | none => exact second

theorem Machines.findMethod? (pair : l.Machines m m') (name : String) :
    ∀ {c c' : Class}, l.Classes c c' → Option.Rel l.Methods (c.findMethod? name) (c'.findMethod? name)
  | ⟨id, text, none, metaclass, methods⟩, ⟨_, _, _, _, methods'⟩, alike => by
    have listed := alike.listed pair
    have bases := listed.superclass
    cases bases
    exact listed.methods.get? (1 : Renaming).injective name
  | ⟨id, text, some base, metaclass, methods⟩, ⟨_, _, _, _, methods'⟩, alike => by
    have listed := alike.listed pair
    have bases := listed.superclass
    cases bases with
    | some related =>
      exact rel_or (listed.methods.get? (1 : Renaming).injective name) (pair.findMethod? name related)

theorem arity_eq {ρ : List Renaming} {f f' : FunDecl} (renamed : FunDecl.Renamed Renaming.Proper ρ f f') :
    f'.arity = f.arity := by
  cases renamed with
  | @mk _ _ name params =>
    cases params with
    | none => rfl
    | some => simp [FunDecl.arity]

theorem isGetter_eq {ρ : List Renaming} {f f' : FunDecl} (renamed : FunDecl.Renamed Renaming.Proper ρ f f') :
    f'.isGetter = f.isGetter := by
  cases renamed with
  | @mk _ _ name params => cases params <;> rfl

/-! ### The first of two machines by itself -/

def left (l : Layout) : Layout where
  frames := l.frames.map fun label => ⟨label.outer, 1⟩
  classes := l.classes.map (Option.map fun both => (both.1, both.1))

theorem naming_left (l : Layout) (id : FrameId) : l.left.naming id = 1 := by
  simp only [naming, left, List.getElem?_map]
  cases l.frames[id]? <;> rfl

theorem trivial_left (l : Layout) (chain : Frames) : ∀ π ∈ l.left.namings chain, π = 1 := by
  intro π member
  obtain ⟨id, -, rfl⟩ := List.mem_map.mp member
  exact l.naming_left id

theorem Chain.left (isChain : l.Chain chain) : l.left.Chain chain := by
  induction isChain with
  | globals made => exact .globals (by simp [Layout.left, made])
  | @frame id outer π made older _ ih =>
    have made : l.left.frames[id]? = some ⟨outer, 1⟩ := by simp [Layout.left, made]
    exact .frame made older ih

theorem Closures.left {between : List Renaming} (trivial : ∀ π ∈ between, π = 1) {f f' : Closure}
    (alike : l.Closures between f f') : l.left.Closures between f f := by
  refine ⟨rfl, rfl, rfl, alike.chain.left, FunDecl.renamed_refl Renaming.proper_one ?_ _⟩
  intro π member
  rcases List.mem_append.mp member with member | member
  · exact trivial π member
  · exact l.trivial_left _ π member

theorem Methods.left {method method' : Method} (alike : l.Methods method method') : l.left.Methods method method := by
  cases alike with
  | closure alike => exact .closure (alike.left (by simp))
  | builtin b => exact .builtin b

theorem Classes.left (alike : l.Classes c c') : l.left.Classes c c := by
  rw [Classes] at alike ⊢
  simp [Layout.left, alike]

theorem classes_option_left {c c' : Option Class} (alike : Option.Rel l.Classes c c') :
    Option.Rel l.left.Classes c c := by
  cases alike with
  | some alike => exact .some (Classes.left alike)
  | none => exact .none

theorem Values.left (alike : l.Values value value') : l.left.Values value value := by
  cases alike with
  | object id alike => exact .object id (classes_option_left alike)
  | classObject alike => exact .classObject (Classes.left alike)
  | function alike => exact .function (alike.left (by simp))
  | trait alike => exact .trait ⟨rfl, rfl, alike.methods.left fun _ _ => Closures.left (by simp)⟩
  | nil | bool | number | string | array | builtin | arrayFunction => constructor

theorem Listed.left {id : Nat} (listed : l.Listed id c c') : l.left.Listed id c c where
  id_left := listed.id_left
  id_right := listed.id_left
  name := rfl
  superclass := classes_option_left listed.superclass
  metaclass := classes_option_left listed.metaclass
  older := listed.older
  methods := listed.methods.left fun _ _ => Methods.left

theorem forall₂_left {α β : Type} {R : α → β → Prop} {Q : α → α → Prop} {xs : List α} {ys : List β}
    (all : List.Forall₂ R xs ys) (weaker : ∀ x y, R x y → Q x x) : List.Forall₂ Q xs xs := by
  induction all with
  | nil => exact .nil
  | cons first _ ih => exact .cons (weaker _ _ first) ih

/-- A machine that is related to another one is related to itself, with nothing renamed. -/
theorem Machines.left (pair : l.Machines m m') : l.left.Machines m m where
  size_left := by simp [Layout.left, pair.size_left]
  size_right := by simp [Layout.left, pair.size_left]
  frames id := by
    rw [naming_left]
    exact (pair.frames id).left fun _ _ => Values.left
  proper id := by
    rw [naming_left]
    exact Renaming.proper_one
  scope := rfl
  inSight := pair.inSight.left
  objects_left := by simp [Layout.left, pair.objects_left]
  objects_right := by simp [Layout.left, pair.objects_left]
  fields id := (pair.fields id).left fun _ _ => Values.left
  classes id c c' found := by
    simp only [Layout.left, List.getElem?_map, Option.map_eq_some_iff] at found
    obtain ⟨_, found, both, rfl, same⟩ := found
    obtain ⟨rfl, rfl⟩ := Prod.mk.inj same
    exact (pair.classes id _ _ found).left
  arrays := rfl
  elements id := forall₂_left (pair.elements id) fun _ _ => Values.left
  fresh := rfl
  printed := rfl
  clock := rfl
  dice := rfl

end Layout

end LoxLang
