import LoxLang.Proofs.Steps

/-!
What the operations of the machine crash with. A fault is said of the data that an operation is given: of the number that
is to be a count, of the frames in sight, of the names that a declaration refers to. Each operation ends with a fault
exactly if its data is at fault.
-/

namespace LoxLang

variable {x : Float} {fault : Fault} {value : Value} {b : Builtin} {args : List Value} {m' : Machine} {chain : Frames}
  {name : String} {seen : List String} {methods : Bindings Closure}

/-! ### Data at fault -/

/-- A number that has no integer part. -/
@[mk_iff]
inductive NoInteger (x : Float) : Fault → Prop
  | notNumber (isNot : Number.parts x = .notNumber) : NoInteger x .notNumberToInteger
  | infinite {negative : Bool} (isInfinite : Number.parts x = .infinite negative) : NoInteger x .infinityToInteger

/-- A number whose integer part is no count. -/
@[mk_iff]
inductive NoCount (x : Float) : Fault → Prop
  | noInteger {fault : Fault} (noInteger : NoInteger x fault) : NoCount x fault
  | large {n : Int} (integer : Number.truncate? x = some n) (outside : n < -countLimit ∨ countLimit ≤ n) :
    NoCount x .countTooLarge

/-- A value can be converted to a number. -/
def Value.Converts (value : Value) (x : Float) : Prop :=
  value.toNumber? = some x ∨ ∃ text, value = .string text ∧ Number.read? text = some x

/-- A function of one number has no value at a number. -/
@[mk_iff]
inductive Builtin.Undefined (x : Float) : Builtin → Fault → Prop
  | exp (large : x.exp.isInf = true) (finite : x.isInf = false) : Undefined x .exp .mathRange
  | log (notPositive : x ≤ 0.0) : Undefined x .log .mathDomain
  | sqrt (negative : x < 0.0) : Undefined x .sqrt .mathDomain
  | sin (infinite : x.isInf = true) : Undefined x .sin .mathDomain
  | cos (infinite : x.isInf = true) : Undefined x .cos .mathDomain
  | floor {fault : Fault} (noInteger : NoInteger x fault) : Undefined x .floor fault
  | ceil {fault : Fault} (noInteger : NoInteger x fault) : Undefined x .ceil fault

/-- A built-in function is given values that it has no result for, and does not say so in an error of the program. -/
@[mk_iff]
inductive Builtin.Faults : Builtin → List Value → Fault → Prop
  | unreadable {text : String} (unread : Number.read? text = none) :
    Faults .array [.string text] (.unreadableNumber text)
  | notConvertible {value : Value} (noNumber : value.toNumber? = none) (noText : ∀ text, value ≠ .string text) :
    Faults .array [value] (.notConvertible value.typeName)
  | size {value : Value} {x : Float} {fault : Fault} (converts : value.Converts x) (noCount : NoCount x fault) :
    Faults .array [value] fault
  | undefined {b : Builtin} {value : Value} {x : Float} {fault : Fault} (number : value.toNumber? = some x)
    (undefined : b.Undefined x fault) : Faults b [value] fault

/-- The first of some names that occurs before, among them or among others. -/
def FirstRepeat (seen names : List String) (name : String) : Prop :=
  ∃ earlier later, names = earlier ++ name :: later ∧ (seen ++ earlier).Nodup ∧ name ∈ seen ++ earlier

/-- Traits cannot be included after others with some methods: at the first reference that is too far out, is none to a
trait, or is one to a trait with a method that was seen before. -/
inductive TraitsFault (m : Machine) : List String → List NameRef → Fault → Prop
  | tooDeep {seen : List String} {ref : NameRef} {rest : List NameRef} {d : Nat} (depth : ref.depth = some d)
    (deep : m.scope.length ≤ d) : TraitsFault m seen (ref :: rest) .scopeTooDeep
  | notTrait {seen : List String} {ref : NameRef} {rest : List NameRef} {value : Value}
    (read : Eval.readName ref.name ref.depth m = .ok value m) (noTrait : ∀ t, value ≠ .trait t) :
    TraitsFault m seen (ref :: rest) (.declaration (.notTrait ref.name.lexeme))
  | repeats {seen : List String} {ref : NameRef} {rest : List NameRef} {t : Trait} {name : String}
    (read : Eval.readTrait ref m = .ok t m) (first : FirstRepeat seen t.methods.names name) :
    TraitsFault m seen (ref :: rest) (.declaration (.duplicateInTraits name))
  | later {seen : List String} {ref : NameRef} {rest : List NameRef} {t : Trait} {fault : Fault}
    (read : Eval.readTrait ref m = .ok t m) (distinct : (seen ++ t.methods.names).Nodup)
    (inner : TraitsFault m (seen ++ t.methods.names) rest fault) : TraitsFault m seen (ref :: rest) fault

/-- The class that a declaration extends is too far out, or is no class. -/
@[mk_iff]
inductive SuperclassFault (m : Machine) (ref : NameRef) : Fault → Prop
  | tooDeep {d : Nat} (depth : ref.depth = some d) (deep : m.scope.length ≤ d) : SuperclassFault m ref .scopeTooDeep
  | notClass {value : Value} (read : Eval.readName ref.name ref.depth m = .ok value m)
    (noClass : ∀ c, value ≠ .classObject c) : SuperclassFault m ref (.declaration .superclassNotClass)

/-- A method cannot be found through `super`: there is no frame that far out, or it holds no class, or one that does not
have the method. -/
@[mk_iff]
inductive SuperFault (m : Machine) (method : Token) (d : Nat) : Fault → Prop
  | tooDeep (deep : m.scope.length ≤ d) : SuperFault m method d .scopeTooDeep
  | notClass {id : FrameId} {value : Value} (place : m.scope[d]? = some id)
    (found : ((m.frame id).get? superName).getD .nil = value) (noClass : ∀ c, value ≠ .classObject c) :
    SuperFault m method d (.superNotClass value.typeName)
  | noMethod {id : FrameId} {c : Class} (place : m.scope[d]? = some id)
    (found : (m.frame id).get? superName = some (.classObject c)) (missing : c.findMethod? method.lexeme = none) :
    SuperFault m method d (.declaration (.noSuperMethod method.lexeme))

/-! ### Conversions -/

theorem toInteger_error_iff : toInteger x = .error fault ↔ NoInteger x fault := by
  rw [noInteger_iff, toInteger]
  split <;> simp [*, eq_comm]

theorem toInteger_ok_iff {n : Int} : toInteger x = .ok n ↔ Number.truncate? x = some n := by
  unfold toInteger Number.truncate?
  split <;> simp [*]

theorem guarded_error_iff {α : Type} {found : Prop} [Decidable found] {raised : Fault} {result : α} :
    (if found then .error raised else .ok result) = Except.error fault ↔ found ∧ fault = raised := by
  split <;> simp [*, eq_comm]

theorem toCount_error_iff {n : Int} :
    toCount n = .error fault ↔ (n < -countLimit ∨ countLimit ≤ n) ∧ fault = .countTooLarge := by
  rw [toCount, guarded_error_iff, Bool.or_eq_true, decide_eq_true_eq, decide_eq_true_eq]

theorem count_error_iff : (toInteger x).bind toCount = .error fault ↔ NoCount x fault := by
  simp only [noCount_iff, ← toInteger_error_iff, ← toInteger_ok_iff, ← toCount_error_iff]
  cases toInteger x <;> simp [Except.bind]

theorem ne_string_of_toNumber? (number : value.toNumber? = some x) (text : String) : value ≠ .string text := by
  rintro rfl
  cases number

theorem convert_ok_iff : convert value = .ok x ↔ value.Converts x := by
  unfold convert Value.Converts
  cases number : value.toNumber? with
  | some => simp [ne_string_of_toNumber? number]
  | none =>
    cases value with
    | string text => cases read : Number.read? text <;> simp [read]
    | _ => simp

theorem convert_error_iff : convert value = .error fault ↔
      (∃ text, Number.read? text = none ∧ value = .string text ∧ fault = .unreadableNumber text) ∨
      value.toNumber? = none ∧ (∀ text, value ≠ .string text) ∧ fault = .notConvertible value.typeName := by
  unfold convert
  cases number : value.toNumber? with
  | some => simp [ne_string_of_toNumber? number]
  | none =>
    cases value with
    | string text =>
      cases read : Number.read? text with
      | none => simp [read, eq_comm]
      | some => simp [read]
    | _ => simp [eq_comm]

theorem makeArray_error_iff :
    (convertToInteger value).bind toCount = .error fault ↔ Builtin.Faults .array [value] fault := by
  have faults : Builtin.Faults .array [value] fault ↔
      convert value = .error fault ∨ ∃ x, convert value = .ok x ∧ NoCount x fault := by
    simp [Builtin.faults_iff, convert_error_iff, convert_ok_iff, Builtin.undefined_iff, or_assoc]
  simp only [faults, ← count_error_iff, convertToInteger]
  cases convert value <;> simp [Except.bind]

theorem towardZero_error_iff : towardZero x = .error fault ↔ NoInteger x fault := by
  rw [← toInteger_error_iff, towardZero]
  cases toInteger x <;> simp [Except.map]

theorem Builtin.faults_of_ne_array (noArray : b ≠ .array) :
    b.Faults [value] fault ↔ ∃ x, value.toNumber? = some x ∧ b.Undefined x fault := by
  simp [faults_iff, noArray]

theorem Builtin.Faults.ne_pow (faults : b.Faults args fault) : b ≠ .pow := by
  rintro rfl
  simp [faults_iff, undefined_iff] at faults

theorem cellOf_error_iff {size : Nat} {index : Value} : cellOf size index = .error fault ↔
      fault = .infinityToInteger ∧ ∃ x negative, index.Converts x ∧ Number.parts x = .infinite negative := by
  have infinite : convertToInteger index = .error .infinityToInteger ↔
      ∃ x negative, index.Converts x ∧ Number.parts x = .infinite negative := by
    unfold convertToInteger
    constructor
    · intro failed
      cases converted : convert index with
      | error other =>
        rw [converted] at failed
        cases failed
        rcases convert_error_iff.mp converted with ⟨_, _, _, other⟩ | ⟨_, _, other⟩ <;> cases other
      | ok x =>
        rw [converted] at failed
        cases toInteger_error_iff.mp failed with
        | infinite isInfinite => exact ⟨x, _, convert_ok_iff.mp converted, isInfinite⟩
    · rintro ⟨x, negative, converts, isInfinite⟩
      rw [convert_ok_iff.mpr converts]
      exact toInteger_error_iff.mpr (.infinite isInfinite)
  rw [← infinite]
  unfold cellOf
  split
  · simp [*]
  · simp [*, eq_comm]
  · rename_i other apart failed
    have unlike : other ≠ .infinityToInteger := apart
    simp [failed, unlike]

theorem applyBinary_crashed_iff {op : Token} {left right : Value} :
    applyBinary op left right = .error (.crashed fault) ↔
      op.kind = .star ∧ ∃ text x, left = .string text ∧ right = .number x ∧ NoCount x fault := by
  constructor
  · intro failed
    unfold applyBinary at failed
    split at failed
    case h_4 isStar =>
      refine ⟨isStar, ?_⟩
      unfold multiply at failed
      split at failed
      · cases failed
      · rename_i text x
        split at failed
        · cases failed
        · rename_i other noCount
          cases failed
          exact ⟨text, x, rfl, rfl, count_error_iff.mp noCount⟩
      · cases failed
    case h_5 =>
      unfold add at failed
      split at failed <;> cases failed
    case h_10 | h_11 | h_12 => cases failed
    all_goals
      simp only [divideNumbers, compareNumbers, onNumbers] at failed
      repeat' split at failed
      all_goals cases failed
  · rintro ⟨isStar, text, x, rfl, rfl, noCount⟩
    rw [applyBinary, isStar]
    simp only [multiply, count_error_iff.mpr noCount]

theorem applyUnary_not_crashed {op : Token} {operand : Value} :
    applyUnary op operand ≠ .error (.crashed fault) := by
  intro failed
  unfold applyUnary at failed
  repeat' split at failed
  all_goals cases failed

/-! ### Computations that crash -/

namespace Eval

variable {α β : Type} {fault : Fault} {m : Machine}

/-- The computation ends with a fault. -/
def Crashes (fault : Fault) (x : Eval α) (m : Machine) : Prop := ∃ m', x m = .error (.crashed fault) m'

theorem not_crashes_of_ok {x : Eval α} {a : α} (ends : x m = .ok a m') : ¬ Crashes fault x m := by
  rintro ⟨m'', crashed⟩
  cases ends.symm.trans crashed

@[simp] theorem not_crashes_pure (a : α) : ¬ Crashes fault (pure a) m := not_crashes_of_ok rfl

@[simp] theorem not_crashes_fail (token : Token) (cause : Cause) : ¬ Crashes fault (fail token cause : Eval α) m := by
  rintro ⟨m', ⟨⟩⟩

@[simp] theorem not_crashes_get : ¬ Crashes fault get m := not_crashes_of_ok rfl

@[simp] theorem not_crashes_scope : ¬ Crashes fault scope m := not_crashes_of_ok rfl

@[simp] theorem not_crashes_freshId : ¬ Crashes fault freshId m := not_crashes_of_ok rfl

@[simp] theorem not_crashes_newObject : ¬ Crashes fault newObject m := not_crashes_of_ok rfl

@[simp] theorem not_crashes_newArray (elements : Array Value) : ¬ Crashes fault (newArray elements) m :=
  not_crashes_of_ok rfl

@[simp] theorem not_crashes_modify (f : Machine → Machine) : ¬ Crashes fault (modify f : Eval Unit) m :=
  not_crashes_of_ok rfl

@[simp] theorem crashes_crash {other : Fault} : Crashes fault (crash other : Eval α) m ↔ other = fault := by
  constructor
  · rintro ⟨m', ⟨⟩⟩
    rfl
  · rintro rfl
    exact ⟨m, rfl⟩

@[simp] theorem crashes_orCrash {result : Except Fault α} : Crashes fault (orCrash result) m ↔ result = .error fault := by
  cases result with
  | ok => simp [orCrash]
  | error => simp [orCrash]

@[simp] theorem crashes_ofExcept {result : Except Ending α} :
    Crashes fault (ofExcept result) m ↔ result = .error (.crashed fault) := by
  cases result with
  | ok => simp [ofExcept]
  | error =>
    constructor
    · rintro ⟨m', ⟨⟩⟩
      rfl
    · rintro ⟨⟩
      exact ⟨m, rfl⟩

theorem crashes_bind_of_ok {x : Eval α} {f : α → Eval β} {a : α} (ends : x m = .ok a m') :
    Crashes fault (x >>= f) m ↔ Crashes fault (f a) m' := by
  rw [Crashes, bind_of_ok ends]
  rfl

theorem crashes_bind {x : Eval α} {f : α → Eval β} :
    Crashes fault (x >>= f) m ↔ Crashes fault x m ∨ ∃ a m', x m = .ok a m' ∧ Crashes fault (f a) m' := by
  cases ends : x m with
  | ok => simp [crashes_bind_of_ok ends, not_crashes_of_ok ends]
  | error => simp [Crashes, bind_of_error ends, ends]

@[simp] theorem crashes_map {x : Eval α} {f : α → β} : Crashes fault (f <$> x) m ↔ Crashes fault x m := by
  rw [← bind_pure_comp, crashes_bind]
  simp

@[simp] theorem crashes_get {f : Machine → Eval α} : Crashes fault (get >>= f) m ↔ Crashes fault (f m) m :=
  crashes_bind_of_ok rfl

@[simp] theorem crashes_scope {f : Frames → Eval α} : Crashes fault (scope >>= f) m ↔ Crashes fault (f m.scope) m :=
  crashes_bind_of_ok rfl

theorem crashes_within {x : Eval α} : Crashes fault (within chain x) m ↔ Crashes fault x { m with scope := chain } := by
  simp only [Crashes, within]
  cases ends : x { m with scope := chain } <;> simp

theorem crashes_catchReturn {body : Eval Unit} {otherwise : Eval Value} :
    Crashes fault (catchReturn body otherwise) m ↔
      Crashes fault body m ∨ ∃ m', body m = .ok () m' ∧ Crashes fault otherwise m' := by
  simp only [Crashes, catchReturn]
  cases ends : body m with
  | ok => simp
  | error ending => cases ending <;> simp

/-! ### Names -/

theorem getAt_eq (chain : Frames) (d : Nat) (name : String) :
    getAt chain d name m = match chain[d]? with
      | some id => .ok (((m.frame id).get? name).getD .nil) m
      | none => .error (.crashed .scopeTooDeep) m := by
  rw [getAt, ancestor]
  cases chain[d]? <;> rfl

theorem crashes_ancestor {d : Nat} : Crashes fault (ancestor chain d) m ↔ chain.length ≤ d ∧ fault = .scopeTooDeep := by
  unfold ancestor
  split
  · rename_i id there
    have inside : d < chain.length := (List.getElem?_eq_some_iff.mp there).1
    simp [inside]
  · rename_i missing
    simp [List.getElem?_eq_none_iff.mp missing, eq_comm]

theorem crashes_getAt {d : Nat} : Crashes fault (getAt chain d name) m ↔ chain.length ≤ d ∧ fault = .scopeTooDeep := by
  rw [getAt, crashes_bind, crashes_ancestor]
  simp

@[simp] theorem not_crashes_getNamed (chain : Frames) (name : Token) : ¬ Crashes fault (getNamed chain name) m := by
  simp only [getNamed, crashes_get]
  split <;> simp

@[simp] theorem not_crashes_assignNamed (chain : Frames) (name : Token) (value : Value) :
    ¬ Crashes fault (assignNamed chain name value) m := by
  simp only [assignNamed, crashes_get]
  split <;> simp

theorem crashes_readName {name : Token} {depth : Option Nat} :
    Crashes fault (readName name depth) m ↔ fault = .scopeTooDeep ∧ ∃ d, depth = some d ∧ m.scope.length ≤ d := by
  cases depth with
  | none => simp [readName]
  | some => simp [readName, crashes_getAt, and_comm]

theorem crashes_assignName {name : Token} {depth : Option Nat} : Crashes fault (assignName name depth value) m ↔
      fault = .scopeTooDeep ∧ ∃ d, depth = some d ∧ m.scope.length ≤ d := by
  cases depth with
  | none => simp [assignName]
  | some =>
    rw [assignName, crashes_scope, assignAt, crashes_bind, crashes_ancestor]
    simp [and_comm]

@[simp] theorem not_crashes_define (name : String) (value : Value) : ¬ Crashes fault (define name value) m :=
  not_crashes_of_ok (define_eq m name value)

/-! ### Built-in functions -/

theorem crashes_ofNumber (noArray : b ≠ .array) {f : Float → Except Fault Float}
    (undefined : ∀ x, f x = .error fault ↔ b.Undefined x fault) :
    Crashes fault (ofNumber b [value] f) m ↔ b.Faults [value] fault := by
  simp only [Builtin.faults_of_ne_array noArray, ← undefined, ofNumber, onlyArgument, pure_bind]
  cases value.toNumber? with
  | none => simp [failBuiltin]
  | some => simp

theorem not_crashes_ofNumbers {first second : Value} {f : List Float → Eval Float}
    (calm : ∀ x y, ¬ Crashes fault (f [x, y]) m) : ¬ Crashes fault (ofNumbers b [first, second] f) m := by
  unfold ofNumbers
  split
  · simp [failBuiltin]
  · rename_i numbers found
    obtain ⟨x, y, rfl⟩ : ∃ x y, numbers = [x, y] := by
      cases one : first.toNumber? <;> cases two : second.toNumber? <;> simp [one, two] at found
      exact ⟨_, _, found.symm⟩
    simp [calm]

theorem not_crashes_sumElements (value : Value) : ¬ Crashes fault (sumElements [value]) m := by
  simp only [sumElements, crashes_get, onlyArgument, pure_bind]
  split
  · simp [failBuiltin]
  · split <;> simp [failBuiltin]

theorem crashes_callBuiltin (enough : args.length = b.arity) (noPower : b ≠ .pow) :
    Crashes fault (callBuiltin b args) m ↔ b.Faults args fault := by
  cases b with
  | clock | random =>
    obtain rfl := List.length_eq_zero_iff.mp enough
    refine iff_of_false (not_crashes_of_ok rfl) ?_
    rintro ⟨⟩
  | max | min | randomRange =>
    obtain ⟨first, second, rfl⟩ := List.length_eq_two.mp enough
    refine iff_of_false (not_crashes_ofNumbers fun x y => not_crashes_of_ok rfl) ?_
    rintro ⟨⟩
  | array =>
    obtain ⟨value, rfl⟩ := List.length_eq_one_iff.mp enough
    rw [callBuiltin, makeArray, onlyArgument, pure_bind, crashes_bind, crashes_orCrash, makeArray_error_iff]
    simp
  | sum =>
    obtain ⟨value, rfl⟩ := List.length_eq_one_iff.mp enough
    refine iff_of_false (not_crashes_sumElements value) ?_
    rintro (_ | _ | _ | ⟨-, ⟨⟩⟩)
  | abs | exp | log | sqrt | floor | ceil | sin | cos | tanh =>
    obtain ⟨value, rfl⟩ := List.length_eq_one_iff.mp enough
    refine crashes_ofNumber (by simp) fun x => ?_
    simp [exponential, logarithm, squareRoot, periodic, guarded_error_iff, towardZero_error_iff, Builtin.undefined_iff,
      and_assoc]
  | pow => exact absurd rfl noPower

theorem crashes_findCell {access : ArrayAccess} {id : Nat} {index : Value} {rest : List Value} :
    Crashes fault (findCell access id (index :: rest)) m ↔
      fault = .infinityToInteger ∧ ∃ x negative, index.Converts x ∧ Number.parts x = .infinite negative := by
  simp only [findCell, crashes_get]
  rw [crashes_bind, crashes_orCrash, cellOf_error_iff]
  refine or_iff_left ?_
  rintro ⟨found, m', -, crashed⟩
  cases found <;> simp at crashed

theorem crashes_callArrayFunction {access : ArrayAccess} {id : Nat} (enough : args.length = access.arity) :
    Crashes fault (callArrayFunction access id args) m ↔
      fault = .infinityToInteger ∧ ∃ index x negative, args.head? = some index ∧ index.Converts x ∧
        Number.parts x = .infinite negative := by
  cases access with
  | get =>
    obtain ⟨index, rfl⟩ := List.length_eq_one_iff.mp enough
    simp [callArrayFunction, readElement, crashes_bind, crashes_findCell]
  | set =>
    obtain ⟨index, value, rfl⟩ := List.length_eq_two.mp enough
    simp [callArrayFunction, writeElement, crashes_bind, crashes_findCell]

/-! ### Properties -/

@[simp] theorem not_crashes_bindThis (f : Closure) (receiver : Value) : ¬ Crashes fault (bindThis f receiver) m :=
  not_crashes_of_ok rfl

theorem not_crashes_readProperty (value : Value) (name : Token) : ¬ Crashes fault (readProperty value name) m := by
  have member (self : Value) (id : Nat) (madeBy : Option Class) : ¬ Crashes fault (readMember self id madeBy name) m := by
    simp only [readMember, crashes_get]
    split
    · simp
    · split <;> simp
  unfold readProperty
  split
  · exact member _ _ _
  · exact member _ _ _
  · unfold readArrayMember
    repeat' split
    all_goals simp
  · simp

@[simp] theorem not_crashes_checkHasFields (value : Value) (name : Token) :
    ¬ Crashes fault (checkHasFields value name) m := by
  unfold checkHasFields
  split <;> simp

@[simp] theorem not_crashes_setProperty (object : Value) (name : Token) (value : Value) :
    ¬ Crashes fault (setProperty object name value) m := by
  unfold setProperty
  split <;> simp [setField]

theorem crashes_readSuper {method : Token} {d : Nat} :
    Crashes fault (readSuper method (some d)) m ↔
      SuperFault m method d fault ∨ ∃ id c b, m.scope[d]? = some id ∧
        (m.frame id).get? superName = some (.classObject c) ∧ c.findMethod? method.lexeme = some (.builtin b) ∧
        fault = .cannotBind (Value.builtin b).typeName := by
  simp only [readSuper, crashes_scope, superFault_iff]
  cases there : m.scope[d]? with
  | none =>
    have deep := List.getElem?_eq_none_iff.mp there
    have failed : getAt m.scope d superName m = .error (.crashed .scopeTooDeep) m := by rw [getAt_eq, there]
    simp [Crashes, bind_of_error failed, deep, eq_comm]
  | some id =>
    have inside : d < m.scope.length := (List.getElem?_eq_some_iff.mp there).1
    have near : m.scope[d - 1]? = some m.scope[d - 1] := List.getElem?_eq_getElem (by omega)
    have base : getAt m.scope d superName m = .ok (((m.frame id).get? superName).getD .nil) m := by rw [getAt_eq, there]
    rw [crashes_bind_of_ok base, crashes_bind_of_ok (by rw [getAt_eq, near])]
    cases bound : (m.frame id).get? superName with
    | none => simp [bound, inside.not_ge, eq_comm]
    | some value => cases value with
      | classObject c => cases found : c.findMethod? method.lexeme with
        | none => simp [bound, inside.not_ge, found, eq_comm]
        | some own => cases own <;> simp [bound, inside.not_ge, found, eq_comm]
      | _ => simp [bound, inside.not_ge, eq_comm]

/-! ### Calls -/

theorem crashes_withoutReturn {f : Closure} :
    Crashes fault (withoutReturn f) m ↔ f.isInitializer = true ∧ f.frames = [] ∧ fault = .scopeTooDeep := by
  unfold withoutReturn
  split
  · rename_i isInitializer
    simp [crashes_getAt, isInitializer]
  · rename_i other
    simp [other]

theorem crashes_text : Crashes fault (text value) m ↔ m.display m.displayBound value = .error (.crashed fault) := by
  cases value with
  | nil => simp [text, Machine.display]
  | _ => simp [text]

/-! ### Declarations -/

theorem firstRepeat_cons_of_mem {rest : List String} {first : String} (known : first ∈ seen) (distinct : seen.Nodup) :
    FirstRepeat seen (first :: rest) name ↔ name = first := by
  constructor
  · rintro ⟨earlier, later, same, nodup, -⟩
    cases earlier with
    | nil => exact (List.cons.inj same).1.symm
    | cons =>
      obtain ⟨rfl, -⟩ := List.cons.inj same
      exact absurd rfl ((List.nodup_append.mp nodup).2.2 first known first (by simp))
  · rintro rfl
    exact ⟨[], rest, rfl, by simpa using distinct, by simpa using known⟩

theorem firstRepeat_cons_of_not_mem {rest : List String} {first : String} (new : first ∉ seen) :
    FirstRepeat seen (first :: rest) name ↔ FirstRepeat (seen ++ [first]) rest name := by
  constructor
  · rintro ⟨earlier, later, same, distinct, again⟩
    cases earlier with
    | nil =>
      obtain ⟨rfl, -⟩ := List.cons.inj same
      exact absurd (by simpa using again) new
    | cons _ earlier =>
      obtain ⟨rfl, rfl⟩ := List.cons.inj same
      exact ⟨earlier, later, rfl, by simpa using distinct, by simpa using again⟩
  · rintro ⟨earlier, later, rfl, distinct, again⟩
    exact ⟨first :: earlier, later, rfl, by simpa using distinct, by simpa using again⟩

theorem includeMethods_error_iff (distinct : methods.names.Nodup) {entries : List (String × Closure)}
    {fault : DeclarationFault} : includeMethods methods entries = .error fault ↔
      ∃ name, FirstRepeat methods.names (entries.map Prod.fst) name ∧ fault = .duplicateInTraits name := by
  induction entries generalizing methods with
  | nil => simp [includeMethods, FirstRepeat]
  | cons entry _ ih =>
    obtain ⟨first, f⟩ := entry
    rw [includeMethods, List.map_cons]
    by_cases known : first ∈ methods.names
    · simp [Bindings.contains_iff.mpr known, firstRepeat_cons_of_mem known distinct, eq_comm]
    · have names := Bindings.names_put_of_new known f
      rw [if_neg (mt Bindings.contains_iff.mp known), ih (names ▸ nodup_concat distinct known), names]
      simp only [firstRepeat_cons_of_not_mem known]

theorem crashes_readName_bind {name : Token} {depth : Option Nat} {f : Value → Eval α} :
    Crashes fault (readName name depth >>= f) m ↔ (fault = .scopeTooDeep ∧ ∃ d, depth = some d ∧ m.scope.length ≤ d) ∨
      ∃ value, readName name depth m = .ok value m ∧ Crashes fault (f value) m := by
  rw [crashes_bind, crashes_readName]
  refine or_congr_right ⟨?_, ?_⟩
  · rintro ⟨value, m', read, crashed⟩
    obtain rfl := (looks_readName name depth).of_ok read
    exact ⟨value, read, crashed⟩
  · rintro ⟨value, read, crashed⟩
    exact ⟨value, m, read, crashed⟩

theorem crashes_readTrait {ref : NameRef} :
    Crashes fault (readTrait ref) m ↔ (fault = .scopeTooDeep ∧ ∃ d, ref.depth = some d ∧ m.scope.length ≤ d) ∨
      ∃ value, readName ref.name ref.depth m = .ok value m ∧ (∀ t, value ≠ .trait t) ∧
        fault = .declaration (.notTrait ref.name.lexeme) := by
  rw [readTrait, crashes_readName_bind]
  refine or_congr_right (exists_congr fun value => and_congr_right' ?_)
  cases value <;> simp [eq_comm]

theorem crashes_readSuperclass {ref : NameRef} :
    Crashes fault (readSuperclass (some ref)) m ↔ SuperclassFault m ref fault := by
  rw [readSuperclass, crashes_readName_bind, superclassFault_iff]
  refine or_congr (by simp [and_assoc, and_comm]) (exists_congr fun value => and_congr_right' ?_)
  cases value <;> simp [eq_comm]

theorem includeMethods_of_nodup {entries : List (String × Closure)}
    (distinct : (methods.names ++ entries.map Prod.fst).Nodup) :
    ∃ all, includeMethods methods entries = .ok all ∧ all.names = methods.names ++ entries.map Prod.fst := by
  have spec := includeMethods_spec (List.nodup_append.mp distinct).1 entries
  cases included : includeMethods methods entries with
  | ok all =>
    rw [included] at spec
    exact ⟨all, rfl, spec.1⟩
  | error =>
    rw [included] at spec
    exact absurd distinct spec

theorem crashes_includeTraits (distinct : methods.names.Nodup) {refs : List NameRef} :
    Crashes fault (includeTraits methods refs) m ↔ TraitsFault m methods.names refs fault := by
  induction refs generalizing methods with
  | nil =>
    refine iff_of_false (not_crashes_pure _) ?_
    rintro ⟨⟩
  | cons ref _ ih =>
    rw [includeTraits, crashes_bind, crashes_readTrait]
    constructor
    · rintro ((⟨rfl, d, depth, deep⟩ | ⟨value, read, noTrait, rfl⟩) | ⟨t, m', read, crashed⟩)
      · exact .tooDeep depth deep
      · exact .notTrait read noTrait
      · obtain rfl := (looks_readTrait ref).of_ok read
        have spec := includeMethods_spec distinct t.methods.entries
        cases included : includeMethods methods t.methods.entries with
        | error =>
          simp only [included, crashes_crash] at crashed
          obtain ⟨name, first, rfl⟩ := (includeMethods_error_iff distinct).mp included
          exact crashed ▸ .repeats read first
        | ok =>
          simp only [included] at crashed spec
          have inner := (ih spec.2).mp crashed
          rw [spec.1] at inner
          exact .later read (spec.1 ▸ spec.2) inner
    · intro faulty
      cases faulty with
      | tooDeep depth deep => exact .inl (.inl ⟨rfl, _, depth, deep⟩)
      | notTrait read noTrait => exact .inl (.inr ⟨_, read, noTrait, rfl⟩)
      | repeats read first =>
        refine .inr ⟨_, m, read, ?_⟩
        simp only [(includeMethods_error_iff distinct).mpr ⟨_, first, rfl⟩, crashes_crash]
      | later read nodup inner =>
        obtain ⟨more, included, names⟩ := includeMethods_of_nodup nodup
        refine .inr ⟨_, m, read, ?_⟩
        simp only [included]
        rw [ih (names ▸ nodup), names]
        exact inner

theorem crashes_addTraitMethods (distinct : methods.names.Nodup) {decls : List FunDecl} :
    Crashes fault (addTraitMethods methods decls) m ↔
      ∃ name, FirstRepeat methods.names (decls.map (·.name.lexeme)) name ∧
        fault = .declaration (.declaredByTrait name) := by
  induction decls generalizing methods m with
  | nil => simp [addTraitMethods, FirstRepeat]
  | cons decl _ ih =>
    rw [addTraitMethods, List.map_cons]
    by_cases known : decl.name.lexeme ∈ methods.names
    · simp [Bindings.contains_iff.mpr known, firstRepeat_cons_of_mem known distinct, eq_comm]
    · have made : makeClosure decl false m = .ok ⟨m.fresh, decl, m.scope, false⟩ { m with fresh := m.fresh + 1 } := rfl
      have names := Bindings.names_put_of_new known ⟨m.fresh, decl, m.scope, false⟩
      rw [if_neg (mt Bindings.contains_iff.mp known), crashes_bind_of_ok made,
        ih (names ▸ nodup_concat distinct known), names]
      simp only [firstRepeat_cons_of_not_mem known]

theorem crashes_declareTrait {decl : TraitDecl} :
    Crashes fault (declareTrait decl) m ↔ TraitsFault (m.defining decl.name.lexeme .nil) [] decl.traits fault ∨
      ∃ included name, ReadTraits (m.defining decl.name.lexeme .nil) decl.traits included ∧
        FirstRepeat (included.flatMap (·.methods.names)) (decl.methods.map (·.name.lexeme)) name ∧
        fault = .declaration (.declaredByTrait name) := by
  have unnamed : (Bindings.empty : Bindings Closure).names.Nodup := .nil
  rw [declareTrait, crashes_bind_of_ok (define_eq m decl.name.lexeme .nil), crashes_bind, crashes_includeTraits unnamed]
  refine or_congr_right ?_
  rcases includeTraits_cases (m.defining decl.name.lexeme .nil) unnamed decl.traits with
    ⟨all, traits, taken, reads, distinct, entries⟩ | ⟨_, failed, -, cannot⟩
  · have names : all.names = traits.flatMap (·.methods.names) := by
      rw [Bindings.names, entries, List.map_append, List.map_flatMap]
      rfl
    constructor
    · rintro ⟨_, _, again, crashed⟩
      cases taken.symm.trans again
      rw [crashes_bind, crashes_addTraitMethods distinct, names] at crashed
      obtain ⟨name, first, rfl⟩ := crashed.resolve_right (by simp [crashes_bind])
      exact ⟨traits, name, reads, first, rfl⟩
    · rintro ⟨others, name, again, first, rfl⟩
      obtain rfl := reads.eq again
      refine ⟨all, _, taken, ?_⟩
      rw [crashes_bind, crashes_addTraitMethods distinct, names]
      exact .inl ⟨name, first, rfl⟩
  · constructor
    · rintro ⟨_, _, taken, -⟩
      cases failed.symm.trans taken
    · rintro ⟨traits, name, reads, ⟨earlier, later, -, nodup, -⟩, -⟩
      exact absurd (List.nodup_append.mp nodup).1 (cannot traits reads)

/-- Whether traits can be included depends on nothing but the frames. -/
theorem traitsFault_congr {refs : List NameRef} (faulty : TraitsFault m seen refs fault)
    (frames : m'.frames = m.frames) (chain : m'.scope = m.scope) : TraitsFault m' seen refs fault := by
  induction faulty with
  | tooDeep depth deep => exact .tooDeep depth (chain ▸ deep)
  | notTrait read noTrait => exact .notTrait (readName_congr frames chain _ _ read) noTrait
  | repeats read first => exact .repeats (readTrait_congr frames.symm chain.symm read) first
  | later read distinct _ ih => exact .later (readTrait_congr frames.symm chain.symm read) distinct ih

theorem crashes_makeClass {decl : ClassDecl} {base : Option Class} :
    Crashes fault (makeClass decl base) m ↔ TraitsFault m [] decl.traits fault := by
  let m₁ : Machine := { m with fresh := m.fresh + decl.classMethods.length, fields := m.fields.push .empty }
  have own := addMethods_eq (fun _ => false) .empty decl.classMethods m
  have object : newObject { m with fresh := m.fresh + decl.classMethods.length } = .ok m.fields.size m₁ := rfl
  have unnamed : (Bindings.empty : Bindings Closure).names.Nodup := .nil
  have alike : TraitsFault m₁ [] decl.traits fault ↔ TraitsFault m [] decl.traits fault :=
    ⟨fun faulty => traitsFault_congr faulty rfl rfl, fun faulty => traitsFault_congr faulty rfl rfl⟩
  rw [makeClass, crashes_bind_of_ok own, crashes_bind_of_ok object, crashes_bind, crashes_includeTraits unnamed,
    ← alike]
  refine or_iff_left ?_
  rintro ⟨all, m', -, crashed⟩
  rw [crashes_bind_of_ok (addMethods_eq ..)] at crashed
  simp at crashed

theorem crashes_declareClass {decl : ClassDecl} :
    Crashes fault (declareClass decl) m ↔ (∃ ref, decl.superclass = some ref ∧ SuperclassFault m ref fault) ∨
      ∃ base, readSuperclass decl.superclass m = .ok base m ∧ TraitsFault (m.classSite decl base) [] decl.traits fault := by
  rw [declareClass, crashes_bind]
  refine or_congr ?_ ⟨?_, ?_⟩
  · cases decl.superclass with
    | none => simp [readSuperclass]
    | some => simp [crashes_readSuperclass]
  · rintro ⟨base, m', read, crashed⟩
    obtain rfl := (looks_readSuperclass decl.superclass).of_ok read
    rw [crashes_bind_of_ok (define_eq ..), crashes_bind_of_ok (scope_defining_eq ..),
      crashes_bind_of_ok (enterSubclass_eq ..), crashes_bind, crashes_makeClass] at crashed
    exact ⟨base, read, crashed.resolve_right (by simp [setScope, crashes_bind])⟩
  · rintro ⟨base, read, faulty⟩
    refine ⟨base, m, read, ?_⟩
    rw [crashes_bind_of_ok (define_eq ..), crashes_bind_of_ok (scope_defining_eq ..),
      crashes_bind_of_ok (enterSubclass_eq ..), crashes_bind, crashes_makeClass]
    exact .inl faulty

end Eval

end LoxLang
