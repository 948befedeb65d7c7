import LoxLang.Proofs.Sequencing

/-!
What an index reaches. The two functions of an array agree on the cell that an index denotes. An index that denotes none is
refused, except for an infinite one, which neither function survives.
-/

namespace LoxLang

/-- One cell of an array is overwritten, and nothing else is touched. -/
structure Machine.SetsCell (m m' : Machine) (id cell : Nat) (value : Value) : Prop where
  here : (m'.elements id)[cell]? = some value
  others : ∀ array other, (array, other) ≠ (id, cell) → (m'.elements array)[other]? = (m.elements array)[other]?
  rest : { m' with arrays := m.arrays } = m

def Machine.setCell (m : Machine) (id cell : Nat) (value : Value) : Machine :=
  { m with arrays := m.arrays.modify id (·.setIfInBounds cell value) }

theorem Machine.elements_setCell (m : Machine) (id cell : Nat) (value : Value) (array : Nat) :
    (m.setCell id cell value).elements array =
      if id = array then (m.elements array).setIfInBounds cell value else m.elements array := by
  simp only [Machine.setCell, Machine.elements, Array.getElem?_modify]
  split <;> cases m.arrays[array]? <;> simp

/-- The cell that an integer denotes: from the start, from the end, or none. -/
theorem cell?_cases (size : Nat) (k : Int) :
    (∃ cell : Nat, k = cell ∧ cell? size k = some cell ∧ cell < size) ∨
      (∃ cell : Nat, k = cell - size ∧ cell? size k = some cell ∧ cell < size) ∨
      (k < -size ∨ size ≤ k) ∧ cell? size k = none := by
  simp only [cell?, Bool.and_eq_true, decide_eq_true_eq]
  split <;> rename_i inside
  · exact .inl ⟨k.toNat, by omega, rfl, by omega⟩
  · split <;> rename_i fromEnd
    · exact .inr (.inl ⟨(k + size).toNat, by omega, rfl, by omega⟩)
    · exact .inr (.inr ⟨by omega, rfl⟩)

namespace Eval

variable {m : Machine} {id cell : Nat} {index value : Value} {fault : Fault}

/-- Reading and writing at an index end in the same way, and leave the machine as it was. -/
def BothEnd (m : Machine) (id : Nat) (index value : Value) (ending : ArrayAccess → Ending) : Prop :=
  callArrayFunction .get id [index] m = .error (ending .get) m ∧
    callArrayFunction .set id [index, value] m = .error (ending .set) m

/-- Reading and writing at an index end with an error at the name of the function. -/
def Refuses (m : Machine) (id : Nat) (index value : Value) : Prop :=
  BothEnd m id index value fun access => .error (nativeToken access.name) .badIndex

/-- Reading at an index yields the element of a cell, and writing there sets that cell. -/
def Reaches (m : Machine) (id cell : Nat) (index value : Value) : Prop :=
  (∃ element, (m.elements id)[cell]? = some element ∧ callArrayFunction .get id [index] m = .ok element m) ∧
    ∃ m', callArrayFunction .set id [index, value] m = .ok value m' ∧ m.SetsCell m' id cell value

theorem findCell_of_ok {access : ArrayAccess} {rest : List Value} {result : Option Nat}
    (found : cellOf (m.elements id).size index = .ok result) :
    findCell access id (index :: rest) m =
      result.elim (.error (.error (nativeToken access.name) .badIndex) m) fun cell => .ok cell m := by
  rw [findCell, bind_of_ok (x := get) rfl]
  simp only [found]
  cases result <;> rfl

theorem refuses_of_cellOf (none_ : cellOf (m.elements id).size index = .ok none) : Refuses m id index value :=
  ⟨bind_of_error (findCell_of_ok none_), bind_of_error (findCell_of_ok none_)⟩

theorem bothEnd_of_cellOf (bad : cellOf (m.elements id).size index = .error fault) :
    BothEnd m id index value fun _ => .crashed fault := by
  have ends (access : ArrayAccess) (rest : List Value) : findCell access id (index :: rest) m = .error (.crashed fault) m := by
    rw [findCell, bind_of_ok (x := get) rfl]
    simp only [bad]
    rfl
  exact ⟨bind_of_error (ends ..), bind_of_error (ends ..)⟩

theorem reaches_of_cellOf (found : cellOf (m.elements id).size index = .ok (some cell))
    (inside : cell < (m.elements id).size) : Reaches m id cell index value := by
  refine ⟨⟨(m.elements id)[cell], Array.getElem?_eq_getElem inside, ?_⟩,
    m.setCell id cell value, bind_of_ok (findCell_of_ok found), ?_, ?_, rfl⟩
  · refine (bind_of_ok (findCell_of_ok found)).trans ?_
    show EStateM.Result.ok ((m.elements id)[cell]?.getD .nil) m = _
    rw [Array.getElem?_eq_getElem inside, Option.getD_some]
  · rw [Machine.elements_setCell, if_pos rfl, Array.getElem?_setIfInBounds_self_of_lt inside]
  · intro array other apart
    rw [Machine.elements_setCell]
    split <;> rename_i same
    · subst same
      exact Array.getElem?_setIfInBounds_ne fun equal => apart (by rw [equal])
    · rfl

theorem cellOf_of_convert_error {size : Nat} (bad : convert index = .error fault) : cellOf size index = .ok none := by
  have finite : fault ≠ .infinityToInteger := by
    rintro rfl
    unfold convert at bad
    split at bad
    · cases bad
    · split at bad
      · split at bad <;> cases bad
      · cases bad
  simp only [cellOf, convertToInteger, bad, Except.bind]

/-- What an index reaches in an array, in terms of the number that it is converted to. Only an infinite number is not
refused where it denotes no cell, and integers below zero denote cells from the end. -/
theorem array_index_reaches (m : Machine) (id : Nat) (index value : Value) :
    (∃ fault, convert index = .error fault ∧ Refuses m id index value) ∨
      ∃ x, convert index = .ok x ∧
        ((Number.parts x = .notNumber ∧ Refuses m id index value) ∨
        (∃ negative, Number.parts x = .infinite negative ∧
          BothEnd m id index value fun _ => .crashed .infinityToInteger) ∨
        ∃ k, Number.truncate? x = some k ∧
          ((∃ cell : Nat, k = cell ∧ cell < (m.elements id).size ∧ Reaches m id cell index value) ∨
          (∃ cell : Nat, k = cell - (m.elements id).size ∧ cell < (m.elements id).size ∧ Reaches m id cell index value) ∨
          (k < -(m.elements id).size ∨ (m.elements id).size ≤ k) ∧ Refuses m id index value)) := by
  cases converted : convert index with
  | error fault => exact .inl ⟨fault, rfl, refuses_of_cellOf (cellOf_of_convert_error converted)⟩
  | ok x =>
    refine .inr ⟨x, rfl, ?_⟩
    have integer : convertToInteger index = toInteger x := by rw [convertToInteger, converted]; rfl
    cases parts : Number.parts x with
    | notNumber => exact .inl ⟨rfl, refuses_of_cellOf (by simp only [cellOf, integer, toInteger, parts])⟩
    | infinite negative =>
      exact .inr (.inl ⟨negative, rfl, bothEnd_of_cellOf (by simp only [cellOf, integer, toInteger, parts])⟩)
    | finite =>
      obtain ⟨k, truncated⟩ : ∃ k, Number.truncate? x = some k := by simp only [Number.truncate?, parts, Option.some.injEq, exists_eq']
      have cells : cellOf (m.elements id).size index = .ok (cell? (m.elements id).size k) := by
        simp only [cellOf, integer, toInteger, parts, truncated, Option.getD_some]
      refine .inr (.inr ⟨k, truncated, ?_⟩)
      rcases cell?_cases (m.elements id).size k with ⟨cell, isCell, found, inside⟩ | ⟨cell, isCell, found, inside⟩ | ⟨outside, found⟩
      · exact .inl ⟨cell, isCell, inside, reaches_of_cellOf (cells.trans (by rw [found])) inside⟩
      · exact .inr (.inl ⟨cell, isCell, inside, reaches_of_cellOf (cells.trans (by rw [found])) inside⟩)
      · exact .inr (.inr ⟨outside, refuses_of_cellOf (cells.trans (by rw [found]))⟩)

end Eval
end LoxLang
