/-!
# Bindings

Names bound to values, in the order in which the names were first bound. Binding a name again keeps its place.
-/

namespace LoxLang

/-- Names with their values. -/
structure Bindings (α : Type) where
  entries : List (String × α)
  deriving Repr, Inhabited

namespace Bindings

variable {α : Type}

def empty : Bindings α := ⟨[]⟩

def names (b : Bindings α) : List String := b.entries.map Prod.fst

def get? (b : Bindings α) (name : String) : Option α := b.entries.lookup name

def contains (b : Bindings α) (name : String) : Bool := (b.get? name).isSome

/-- Binds a name in a list of entries: in its place if it is there, else at the end. -/
def putEntry (name : String) (value : α) : List (String × α) → List (String × α)
  | [] => [(name, value)]
  | (key, old) :: rest =>
    if name == key then (key, value) :: rest else (key, old) :: putEntry name value rest

def put (b : Bindings α) (name : String) (value : α) : Bindings α := ⟨putEntry name value b.entries⟩

def putAll (b : Bindings α) (entries : List (String × α)) : Bindings α :=
  entries.foldl (fun b entry => b.put entry.1 entry.2) b

theorem get?_put_self (b : Bindings α) (name : String) (value : α) : (b.put name value).get? name = some value := by
  cases b with
  | mk entries =>
    simp only [get?, put]
    induction entries with
    | nil => simp [putEntry]
    | cons entry rest ih =>
      obtain ⟨key, old⟩ := entry
      by_cases same : name == key
      · simp [putEntry, List.lookup_cons, same]
      · simp [putEntry, List.lookup_cons, same, ih]

theorem get?_put_of_ne (b : Bindings α) {name other : String} (value : α) (different : other ≠ name) :
    (b.put name value).get? other = b.get? other := by
  cases b with
  | mk entries =>
    simp only [get?, put]
    induction entries with
    | nil =>
      have apart : (other == name) = false := by simpa using different
      simp [putEntry, List.lookup_cons, apart]
    | cons entry rest ih =>
      obtain ⟨key, old⟩ := entry
      by_cases same : name == key
      · have isKey : name = key := by simpa using same
        have apart : (other == key) = false := by simpa [← isKey] using different
        simp [putEntry, List.lookup_cons, same, apart]
      · by_cases found : other == key
        · simp [putEntry, List.lookup_cons, same, found]
        · simp [putEntry, List.lookup_cons, same, found, ih]

theorem contains_put {b : Bindings α} {name other : String} {value : α} :
    (b.put name value).contains other = true ↔ other = name ∨ b.contains other = true := by
  by_cases same : other = name
  · subst same
    simp [contains, get?_put_self]
  · simp [contains, get?_put_of_ne _ _ same, same]

theorem contains_putAll {b : Bindings α} {entries : List (String × α)} {name : String} :
    (b.putAll entries).contains name = true ↔ name ∈ entries.map Prod.fst ∨ b.contains name = true := by
  induction entries generalizing b with
  | nil => simp [putAll]
  | cons entry rest ih =>
    have first : b.putAll (entry :: rest) = (b.put entry.1 entry.2).putAll rest := rfl
    rw [first, ih, contains_put, List.map_cons, List.mem_cons]
    grind

end Bindings
end LoxLang
