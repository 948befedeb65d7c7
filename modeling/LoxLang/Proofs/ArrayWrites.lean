import LoxLang.Proofs.ArrayBounds

/-!
Arrays remember. After any uses of an array, through functions that were taken from it at any time, a cell has the value
that was written there last, and nil if nothing was.
-/

namespace LoxLang.Eval

variable {run : Runner} {id size cell : Nat}

/-- A function of an array, taken from it at some time. -/
structure ArrayFunction (run : Runner) (id : Nat) (access : ArrayAccess) where
  value : Value
  taken : ∃ (name : Token) (m m' : Machine), name.lexeme = access.name ∧ getProperty run (.array id) name m = .ok value m'

/-- One of the things that can be done with an array: to call one of its functions, or to read a property. -/
inductive ArrayUse (run : Runner) (id : Nat)
  | get (function : ArrayFunction run id .get) (index : Value)
  | set (function : ArrayFunction run id .set) (index value : Value)
  | read (name : Token)

namespace ArrayUse

def perform : ArrayUse run id → Eval Value
  | get function index => callValue run function.value [index]
  | set function index value => callValue run function.value [index, value]
  | read name => getProperty run (.array id) name

/-- The machine after some uses, also of such that end with an error. -/
def afterAll (uses : List (ArrayUse run id)) (m : Machine) : Machine := uses.foldl (fun m use => use.perform.after m) m

end ArrayUse

/-- The integer toward zero of the index is the number of the cell, from the start or from the end. -/
def Denotes (size : Nat) (index : Value) (cell : Nat) : Prop :=
  ∃ k : Int, convertToInteger index = .ok k ∧ cell < size ∧ (k = cell ∨ k = cell - size)

/-- The use writes a value to a cell of an array of that size. -/
def ArrayUse.Writes (size cell : Nat) (value : Value) (use : ArrayUse run id) : Prop :=
  ∃ function index, use = .set function index value ∧ Denotes size index cell

/-- The value that was written last to a cell, or nil. -/
def LastWritten (size cell : Nat) (uses : List (ArrayUse run id)) (element : Value) : Prop :=
  (∃ earlier use later, uses = earlier ++ use :: later ∧ use.Writes size cell element ∧
      ∀ other ∈ later, ∀ value, ¬ other.Writes size cell value) ∨
    element = .nil ∧ ∀ use ∈ uses, ∀ value, ¬ use.Writes size cell value

theorem LastWritten.concat {uses : List (ArrayUse run id)} {element : Value} (last : LastWritten size cell uses element)
    {use : ArrayUse run id} (elsewhere : ∀ value, ¬ use.Writes size cell value) :
    LastWritten size cell (uses ++ [use]) element := by
  rcases last with ⟨earlier, writer, later, rfl, writes, quiet⟩ | ⟨rfl, quiet⟩
  · refine .inl ⟨earlier, writer, later ++ [use], by simp, writes, fun other member => ?_⟩
    rcases List.mem_append.mp member with inLater | isUse
    · exact quiet other inLater
    · rwa [List.mem_singleton.mp isUse]
  · refine .inr ⟨rfl, fun other member => ?_⟩
    rcases List.mem_append.mp member with inUses | isUse
    · exact quiet other inUses
    · rwa [List.mem_singleton.mp isUse]

/-! ### What an index denotes -/

theorem Denotes.inside {index : Value} (denotes : Denotes size index cell) : cell < size := denotes.choose_spec.2.1

theorem Denotes.unique {index : Value} {other : Nat} (one : Denotes size index cell) (two : Denotes size index other) :
    cell = other := by
  obtain ⟨k, converted, inside, isCell⟩ := one
  obtain ⟨_, converted', inside', isCell'⟩ := two
  obtain rfl := Except.ok.inj (converted.symm.trans converted')
  omega

/-- Both functions of the array end without a result, and leave the machine as it is. -/
def BothFail (m : Machine) (id : Nat) (index value : Value) : Prop :=
  ∃ ending, BothEnd m id index value ending

/-- An index denotes a cell, which is the one that is reached, or it denotes none and nothing happens. -/
theorem reaches_or_fails (m : Machine) (id : Nat) (index : Value) :
    (∃ cell, Denotes (m.elements id).size index cell ∧ ∀ value, Reaches m id cell index value) ∨
      (∀ cell, ¬ Denotes (m.elements id).size index cell) ∧ ∀ value, BothFail m id index value := by
  cases converted : convertToInteger index with
  | error fault =>
    refine .inr ⟨?_, fun value => ?_⟩
    · rintro cell ⟨k, isInteger, -⟩
      cases converted.symm.trans isInteger
    cases found : cellOf (m.elements id).size index with
    | error => exact ⟨_, bothEnd_of_cellOf found⟩
    | ok result =>
      obtain rfl : result = none := by
        rw [cellOf, converted] at found
        cases fault <;> cases found <;> rfl
      exact ⟨_, refuses_of_cellOf found⟩
  | ok k =>
    have cells : cellOf (m.elements id).size index = .ok (cell? (m.elements id).size k) := by simp only [cellOf, converted]
    rcases cell?_cases (m.elements id).size k with ⟨cell, isCell, found, inside⟩ | ⟨cell, isCell, found, inside⟩ | ⟨outside, found⟩
    · exact .inl ⟨cell, ⟨k, converted, inside, .inl isCell⟩, fun _ => reaches_of_cellOf (found ▸ cells) inside⟩
    · exact .inl ⟨cell, ⟨k, converted, inside, .inr isCell⟩, fun _ => reaches_of_cellOf (found ▸ cells) inside⟩
    · refine .inr ⟨?_, fun value => ⟨_, refuses_of_cellOf (found ▸ cells)⟩⟩
      rintro cell ⟨k', isInteger, inside, isCell⟩
      obtain rfl := Except.ok.inj (converted.symm.trans isInteger)
      omega

/-! ### One use -/

theorem getProperty_array (run : Runner) (id : Nat) (name : Token) :
    getProperty run (.array id) name = readArrayMember id name := by
  funext m
  simp only [getProperty, readProperty, readArrayMember]
  split
  · rfl
  · split
    · rfl
    · split <;> rfl

theorem ArrayFunction.callValue_eq {access : ArrayAccess} (f : ArrayFunction run id access) (args : List Value) :
    callValue run f.value args = callArrayFunction access id args := by
  obtain ⟨value, name, m, m', named, taken⟩ := f
  rw [getProperty_array, readArrayMember] at taken
  cases access with
  | get =>
    rw [if_pos (show name.lexeme = "get" from named)] at taken
    cases taken
    rfl
  | set =>
    rw [if_neg (by rw [named]; decide), if_pos (show name.lexeme = "set" from named)] at taken
    cases taken
    rfl

theorem elements_after_read (name : Token) (m : Machine) :
    ((readArrayMember id name).after m).elements id = m.elements id := by
  rw [readArrayMember]
  split
  · rfl
  · split
    · rfl
    · split <;> rfl

theorem elements_after_get (index : Value) (m : Machine) :
    ((callArrayFunction .get id [index]).after m).elements id = m.elements id := by
  rcases reaches_or_fails m id index with ⟨cell, -, reaches⟩ | ⟨-, fails⟩
  · obtain ⟨⟨element, -, reads⟩, -⟩ := reaches .nil
    rw [after, reads]
  · obtain ⟨ending, reads, -⟩ := fails .nil
    rw [after, reads]

/-- A use sets the cell that it writes to, or it writes to none and the array is as before. -/
theorem ArrayUse.cases_after (use : ArrayUse run id) (m : Machine) :
    (∃ cell value, use.Writes (m.elements id).size cell value ∧ m.SetsCell (use.perform.after m) id cell value) ∨
      (∀ cell value, ¬ use.Writes (m.elements id).size cell value) ∧
        (use.perform.after m).elements id = m.elements id := by
  cases use with
  | get f =>
    refine .inr ⟨?_, by rw [perform, f.callValue_eq, elements_after_get]⟩
    rintro cell value ⟨_, _, same, -⟩
    cases same
  | read =>
    refine .inr ⟨?_, by rw [perform, getProperty_array, elements_after_read]⟩
    rintro cell value ⟨_, _, same, -⟩
    cases same
  | set f index value =>
    rw [perform, f.callValue_eq, after]
    rcases reaches_or_fails m id index with ⟨cell, denotes, reaches⟩ | ⟨none_, fails⟩
    · obtain ⟨-, m', writes, sets⟩ := reaches value
      rw [writes]
      exact .inl ⟨cell, value, ⟨f, index, rfl, denotes⟩, sets⟩
    · obtain ⟨ending, -, writes⟩ := fails value
      rw [writes]
      refine .inr ⟨?_, rfl⟩
      rintro cell other ⟨_, _, same, denotes⟩
      cases same
      exact none_ cell denotes

theorem size_of_setsCell {m m' : Machine} {value : Value} (sets : m.SetsCell m' id cell value)
    (inside : cell < (m.elements id).size) : (m'.elements id).size = (m.elements id).size := by
  have same (k : Nat) : (m'.elements id).size ≤ k ↔ (m.elements id).size ≤ k := by
    by_cases isCell : k = cell
    · subst isCell
      exact iff_of_false (Nat.not_le_of_lt (Array.getElem?_eq_some_iff.mp sets.here).1) (Nat.not_le_of_lt inside)
    · rw [← Array.getElem?_eq_none_iff, sets.others id k fun equal => isCell (Prod.mk.inj equal).2,
        Array.getElem?_eq_none_iff]
  exact Nat.le_antisymm ((same _).mpr (Nat.le_refl _)) ((same _).mp (Nat.le_refl _))

/-! ### Any uses -/

/-- The array has its size, and in each cell what was written there last. -/
structure Remembers (size : Nat) (uses : List (ArrayUse run id)) (m : Machine) : Prop where
  size_eq : (m.elements id).size = size
  cells : ∀ cell < size, ∃ element, (m.elements id)[cell]? = some element ∧ LastWritten size cell uses element

theorem Remembers.step {uses : List (ArrayUse run id)} {m : Machine} (remembers : Remembers size uses m)
    (use : ArrayUse run id) : Remembers size (uses ++ [use]) (use.perform.after m) := by
  obtain ⟨rfl, cells⟩ := remembers
  rcases use.cases_after m with ⟨cell, value, writes, sets⟩ | ⟨quiet, same⟩
  · obtain ⟨f, index, rfl, denotes⟩ := writes
    refine ⟨size_of_setsCell sets denotes.inside, fun other inside => ?_⟩
    by_cases isCell : other = cell
    · subst isCell
      exact ⟨value, sets.here, .inl ⟨uses, _, [], rfl, ⟨f, index, rfl, denotes⟩, by simp⟩⟩
    · obtain ⟨element, here, last⟩ := cells other inside
      have kept := sets.others id other fun equal => isCell (Prod.mk.inj equal).2
      refine ⟨element, kept.trans here, last.concat fun v ⟨_, _, same, denotes'⟩ => ?_⟩
      cases same
      exact isCell (denotes'.unique denotes)
  · refine ⟨congrArg Array.size same, fun cell inside => ?_⟩
    obtain ⟨element, here, last⟩ := cells cell inside
    exact ⟨element, by rw [same, here], last.concat (quiet cell)⟩

theorem remembers_afterAll {m : Machine} (fresh : m.elements id = Array.replicate size .nil)
    (uses : List (ArrayUse run id)) : Remembers size uses (ArrayUse.afterAll uses m) := by
  induction uses using List.reverseRecOn with
  | nil =>
    refine ⟨by simp [ArrayUse.afterAll, fresh], fun cell inside => ⟨.nil, ?_, .inr ⟨rfl, by simp⟩⟩⟩
    simp [ArrayUse.afterAll, fresh, inside]
  | append_singleton _ use ih =>
    rw [ArrayUse.afterAll, List.foldl_concat]
    exact ih.step use

/-! ### From the start -/

theorem makeArray_of_count {argument : Value} {size : Int}
    (count : (convertToInteger argument).bind toCount = .ok size) (rest : List Value) (m : Machine) :
    makeArray (argument :: rest) m =
      .ok (.array m.arrays.size) { m with arrays := m.arrays.push (Array.replicate size.toNat .nil) } := by
  simp only [makeArray]
  rw [bind_of_ok (show onlyArgument (argument :: rest) m = .ok argument m from rfl), count]
  rfl

theorem makeArray_cases (args : List Value) (m : Machine) :
    (∃ ending, makeArray args m = .error ending m) ∨
      ∃ size, makeArray args m =
        .ok (.array m.arrays.size) { m with arrays := m.arrays.push (Array.replicate size .nil) } := by
  cases args with
  | nil => exact .inl ⟨_, rfl⟩
  | cons argument rest =>
    cases count : (convertToInteger argument).bind toCount with
    | error =>
      simp only [makeArray]
      rw [bind_of_ok (show onlyArgument (argument :: rest) m = .ok argument m from rfl), count]
      exact .inl ⟨_, rfl⟩
    | ok size => exact .inr ⟨size.toNat, makeArray_of_count count rest m⟩

/-- An array that has been made keeps its size, whatever is done with it. An index either denotes a cell: then reading
yields what was written there last, and writing sets this cell and nothing else. Or it denotes none: then neither reading
nor writing succeeds, and they change nothing. -/
theorem reads_last_written (run : Runner) (args : List Value) (before : Machine) :
    match makeArray args before with
    | .error _ m => m = before
    | .ok array start => ∃ id, array = .array id ∧ ∀ (uses : List (ArrayUse run id)),
      let size := (start.elements id).size
      let m := ArrayUse.afterAll uses start
      (m.elements id).size = size ∧
      (∀ name : Token, name.lexeme = "length" → getProperty run array name m = .ok (.number (Float.ofNat size)) m) ∧
      ∀ (reader : ArrayFunction run id .get) (writer : ArrayFunction run id .set) (index : Value),
        (∃ cell element, Denotes size index cell ∧ LastWritten size cell uses element ∧
          callValue run reader.value [index] m = .ok element m ∧
          ∀ value, ∃ m', callValue run writer.value [index, value] m = .ok value m' ∧ m.SetsCell m' id cell value) ∨
        (∀ cell, ¬ Denotes size index cell) ∧ (∃ ending, callValue run reader.value [index] m = .error ending m) ∧
          ∀ value, ∃ ending, callValue run writer.value [index, value] m = .error ending m := by
  rcases makeArray_cases args before with ⟨ending, fails⟩ | ⟨size, made⟩
  · rw [fails]
  rw [made]
  refine ⟨_, rfl, fun uses => ?_⟩
  intro size' m
  have fresh : Machine.elements { before with arrays := before.arrays.push (Array.replicate size .nil) }
      before.arrays.size = Array.replicate size .nil := by simp [Machine.elements]
  have isSize : size' = size := by simp [size', fresh]
  obtain ⟨size_eq, cells⟩ := remembers_afterAll fresh uses
  rw [isSize]
  refine ⟨size_eq, fun name isLength => ?_, fun reader writer index => ?_⟩
  · rw [getProperty_array, readArrayMember, if_neg (by rw [isLength]; decide), if_neg (by rw [isLength]; decide),
      if_pos isLength, ← size_eq]
    rfl
  · rw [reader.callValue_eq]
    simp only [writer.callValue_eq]
    rcases reaches_or_fails m before.arrays.size index with ⟨cell, denotes, reaches⟩ | ⟨none_, fails⟩
    · rw [size_eq] at denotes
      obtain ⟨element, here, last⟩ := cells cell denotes.inside
      obtain ⟨⟨_, here', reads⟩, -⟩ := reaches .nil
      obtain rfl := Option.some.inj (here.symm.trans here')
      exact .inl ⟨cell, element, denotes, last, reads, fun value => (reaches value).2⟩
    · rw [size_eq] at none_
      refine .inr ⟨none_, ?_, fun value => ?_⟩
      · obtain ⟨ending, reads, -⟩ := fails .nil
        exact ⟨_, reads⟩
      · obtain ⟨ending, -, writes⟩ := fails value
        exact ⟨_, writes⟩

/-! An array with three cells, and two functions that are taken from it. -/

def threeCells : Machine := { Machine.blank {} {} with arrays := #[Array.replicate 3 .nil] }

def firstSet : ArrayFunction (fun _ => pure ()) 0 .set :=
  ⟨.arrayFunction 0 .set 0, ⟨.identifier, "set", .nil, 1⟩, threeCells, _, rfl, rfl⟩

def laterGet : ArrayFunction (fun _ => pure ()) 0 .get :=
  ⟨.arrayFunction 1 .get 0, ⟨.identifier, "get", .nil, 1⟩, { threeCells with fresh := 1 }, _, rfl, rfl⟩

/-- What the one function writes at the index 1, the other one reads at the index `true`. -/
theorem reads_last_written_true :
    makeArray [.number 3] (.blank {} {}) = .ok (.array 0) threeCells ∧
      let m := ArrayUse.afterAll [.set firstSet (.number 1) (.string "a")] threeCells
      callValue (fun _ => pure ()) laterGet.value [.bool true] m = .ok (.string "a") m := by
  have count : (convertToInteger (.number 3)).bind toCount = .ok 3 := by decide +kernel
  have made : makeArray [.number 3] (.blank {} {}) = .ok (.array 0) threeCells := makeArray_of_count count [] _
  have law := reads_last_written (fun _ => pure ()) [.number 3] (.blank {} {})
  rw [made] at law
  obtain ⟨_, ⟨⟩, law⟩ := law
  obtain ⟨-, -, law⟩ := law [.set firstSet (.number 1) (.string "a")]
  have one : Denotes 3 (.number 1) 1 := ⟨1, by decide +kernel, by decide, .inl rfl⟩
  have true_ : Denotes 3 (.bool true) 1 := ⟨1, by decide +kernel, by decide, .inl rfl⟩
  refine ⟨made, ?_⟩
  rcases law laterGet firstSet (.bool true) with ⟨cell, element, denotes, last, reads, -⟩ | ⟨none_, -⟩
  · obtain rfl := denotes.unique true_
    rcases last with ⟨earlier, use, later, split, ⟨f, index, rfl, -⟩, -⟩ | ⟨-, quiet⟩
    · have first : .set f index element ∈ [ArrayUse.set firstSet (.number 1) (.string "a")] := by simp [split]
      cases List.mem_singleton.mp first
      exact reads
    · exact absurd ⟨_, _, rfl, one⟩ (quiet _ List.mem_cons_self _)
  · exact absurd true_ (none_ 1)

end LoxLang.Eval
