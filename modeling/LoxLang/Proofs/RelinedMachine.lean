import LoxLang.Proofs.Mirrors
import LoxLang.Session

/-!
Machines on other lines. The functions, classes and traits that a machine holds carry their declarations; here the lines
and depths in these are replaced. Nothing that a machine tells about its values depends on them.
-/

namespace LoxLang

namespace Bindings

variable {α β : Type} (f : α → β)

/-- Every value is replaced. -/
def map (b : Bindings α) : Bindings β := ⟨b.entries.map fun entry => (entry.1, f entry.2)⟩

@[simp]
theorem map_empty : (empty : Bindings α).map f = empty := rfl

@[simp]
theorem get?_map (b : Bindings α) (name : String) : (b.map f).get? name = (b.get? name).map f := by
  cases b with
  | mk entries =>
    simp only [get?, map]
    induction entries with
    | nil => rfl
    | cons entry _ ih =>
      by_cases same : name == entry.1
      · simp [List.lookup, same]
      · simp [List.lookup, same, ih]

@[simp]
theorem contains_map (b : Bindings α) (name : String) : (b.map f).contains name = b.contains name := by
  rw [contains, contains, get?_map, Option.isSome_map]

theorem map_putEntry (name : String) (value : α) (entries : List (String × α)) :
    (putEntry name value entries).map (fun entry => (entry.1, f entry.2)) =
      putEntry name (f value) (entries.map fun entry => (entry.1, f entry.2)) := by
  induction entries with
  | nil => rfl
  | cons _ _ ih =>
    simp only [putEntry, List.map_cons]
    split
    · rfl
    · rw [List.map_cons, ih]

@[simp]
theorem map_put (b : Bindings α) (name : String) (value : α) :
    (b.put name value).map f = (b.map f).put name (f value) := congrArg mk (map_putEntry f name value b.entries)

theorem map_putAll (b : Bindings α) (entries : List (String × α)) :
    (b.putAll entries).map f = (b.map f).putAll (entries.map fun entry => (entry.1, f entry.2)) := by
  induction entries generalizing b with
  | nil => rfl
  | cons _ _ ih =>
    simp only [putAll, List.foldl_cons, List.map_cons] at ih ⊢
    rw [ih, map_put]

end Bindings

section
variable (g : Relining)

def Closure.reline (f : Closure) : Closure := { f with decl := f.decl.reline g }

def Method.reline : Method → Method
  | closure f => closure (f.reline g)
  | builtin b => builtin b

mutual

def Class.reline : Class → Class
  | ⟨id, name, base, metaclass, methods⟩ =>
    ⟨id, name, Class.reline? base, Class.reline? metaclass, methods.map (Method.reline g)⟩

def Class.reline? : Option Class → Option Class
  | none => none
  | some c => some c.reline

end

def Trait.reline (t : Trait) : Trait :=
  { t with name := t.name.reline g, methods := t.methods.map (Closure.reline g) }

def Value.reline : Value → Value
  | nil => nil
  | bool b => bool b
  | number x => number x
  | string s => string s
  | array id => array id
  | object o => object { o with madeBy := Class.reline? g o.madeBy }
  | classObject c => classObject (c.reline g)
  | function f => function (f.reline g)
  | trait t => trait (t.reline g)
  | builtin b => builtin b
  | arrayFunction id access owner => arrayFunction id access owner

def RuntimeError.reline (e : RuntimeError) : RuntimeError := { e with token := e.token.reline g }

def Ending.reline : Ending → Ending
  | broke => broke
  | returned value => returned (value.reline g)
  | failed error => failed (error.reline g)
  | crashed fault => crashed fault
  | outOfFuel => outOfFuel

/-- What came out of a run, on another line. -/
def Escape.reline : Escape → Escape
  | scan fault => scan fault
  | parse (.reported error token) => parse (.reported error (token.reline g))
  | parse .noTokens => parse .noTokens
  | scope fault => scope fault
  | ending e => ending (e.reline g)

/-- The machine with all declarations on other lines. -/
def Machine.reline (m : Machine) : Machine :=
  { m with
    frames := m.frames.map (Bindings.map (Value.reline g))
    fields := m.fields.map (Bindings.map (Value.reline g))
    arrays := m.arrays.map (Array.map (Value.reline g)) }

variable {g}

theorem Class.reline?_eq_map (c : Option Class) : Class.reline? g c = c.map (Class.reline g) := by cases c <;> rfl

@[simp]
theorem Class.id_reline (c : Class) : (c.reline g).id = c.id := by
  cases c
  rw [Class.reline]

@[simp]
theorem Class.name_reline (c : Class) : (c.reline g).name = c.name := by
  cases c
  rw [Class.reline]

theorem Class.metaclass_reline (c : Class) : (c.reline g).metaclass = Class.reline? g c.metaclass := by
  cases c
  rw [Class.reline]

theorem Class.findMethod?_reline (name : String) :
    ∀ c : Class, (c.reline g).findMethod? name = (c.findMethod? name).map (Method.reline g)
  | ⟨_, _, none, _, methods⟩ => by simp only [Class.reline, Class.reline?, Class.findMethod?, Bindings.get?_map]
  | ⟨_, _, some base, _, methods⟩ => by
    simp only [Class.reline, Class.reline?, Class.findMethod?, Bindings.get?_map, Class.findMethod?_reline name base]
    cases methods.get? name <;> rfl

@[simp]
theorem FunDecl.name_reline (f : FunDecl) : (f.reline g).name = f.name.reline g := by
  cases f
  rw [FunDecl.reline]

theorem FunDecl.params_reline (f : FunDecl) :
    (f.reline g).params = f.params.map (List.map (Token.reline g)) := by
  cases f
  rw [FunDecl.reline]

theorem FunDecl.body_reline (f : FunDecl) : (f.reline g).body = f.body.map (Stmt.reline g) := by
  cases f
  rw [FunDecl.reline, ← Stmt.relineAll_eq_map]

@[simp]
theorem FunDecl.arity_reline (f : FunDecl) : (f.reline g).arity = f.arity := by
  cases f with
  | mk _ params => cases params <;> simp [FunDecl.arity, FunDecl.reline]

@[simp]
theorem FunDecl.isGetter_reline (f : FunDecl) : (f.reline g).isGetter = f.isGetter := by
  rw [FunDecl.isGetter, FunDecl.params_reline, FunDecl.isGetter, Option.isNone_map]

theorem Method.arity_reline (method : Method) : (method.reline g).arity = method.arity := by
  cases method with
  | closure f => exact FunDecl.arity_reline f.decl
  | builtin => rfl

namespace Value

@[simp]
theorem reline_ofLiteral (value : Literal) : (ofLiteral value).reline g = ofLiteral value := by cases value <;> rfl

end Value

namespace Machine

variable (m : Machine)

@[simp]
theorem frame_reline (id : FrameId) : (m.reline g).frame id = (m.frame id).map (Value.reline g) := by
  simp only [frame, reline, Array.getElem?_map]
  cases m.frames[id]? <;> rfl

@[simp]
theorem fieldsOf_reline (id : Nat) : (m.reline g).fieldsOf id = (m.fieldsOf id).map (Value.reline g) := by
  simp only [fieldsOf, reline, Array.getElem?_map]
  cases m.fields[id]? <;> rfl

@[simp]
theorem elements_reline (id : Nat) : (m.reline g).elements id = (m.elements id).map (Value.reline g) := by
  simp only [elements, reline, Array.getElem?_map]
  cases m.arrays[id]? <;> simp

theorem findFrame?_reline (chain : Frames) (name : String) :
    (m.reline g).findFrame? chain name = m.findFrame? chain name := by
  simp only [findFrame?, frame_reline, Bindings.contains_map]

theorem lookup?_reline (chain : Frames) (name : String) :
    (m.reline g).lookup? chain name = (m.lookup? chain name).map (Value.reline g) := by
  simp only [lookup?, findFrame?_reline, frame_reline, Bindings.get?_map]
  cases m.findFrame? chain name <;> rfl

end Machine

theorem map_modify {α β : Type} {f : α → β} {change : α → α} {change' : β → β}
    (same : ∀ a, f (change a) = change' (f a)) (as : Array α) (i : Nat) :
    (as.modify i change).map f = (as.map f).modify i change' := by
  apply Array.ext_getElem?
  intro j
  by_cases here : i = j
  · subst here
    simp [Array.getElem?_modify, Function.comp_def, same]
  · simp [Array.getElem?_modify, here]

theorem map_modify_put {α β : Type} (f : α → β) (all : Array (Bindings α)) (i : Nat) (name : String) (value : α) :
    (all.modify i (·.put name value)).map (Bindings.map f) = (all.map (Bindings.map f)).modify i (·.put name (f value)) :=
  map_modify (fun b => Bindings.map_put f b name value) all i

theorem Machine.reline_bind (m : Machine) (id : FrameId) (name : String) (value : Value) :
    (m.bind id name value).reline g = (m.reline g).bind id name (value.reline g) := by
  simp only [Machine.bind, Machine.reline, map_modify_put]

end
end LoxLang
