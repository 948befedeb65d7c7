import LoxLang.Proofs.Sequencing

/-!
What the declaration of a class or a trait does. Names are only looked up; functions are made from methods in order; the
methods of traits are taken up one after another, and no name twice.
-/

namespace LoxLang

variable {m m' : Machine} {methods : Bindings Closure}

namespace Bindings

variable {α β : Type}

theorem contains_iff {b : Bindings α} {name : String} : b.contains name = true ↔ name ∈ b.names := by
  cases b with
  | mk entries =>
    simp only [contains, get?, names]
    induction entries with
    | nil => simp
    | cons entry _ ih =>
      by_cases same : name == entry.1
      · have key : name = entry.1 := by simpa using same
        simp [List.lookup, key]
      · have apart : name ≠ entry.1 := by simpa using same
        simp [List.lookup, same, apart, ih]

theorem entries_put_of_new {b : Bindings α} {name : String} (new : name ∉ b.names) (value : α) :
    (b.put name value).entries = b.entries ++ [(name, value)] := by
  cases b with
  | mk entries =>
    simp only [put, names] at new ⊢
    induction entries with
    | nil => rfl
    | cons entry rest ih =>
      have apart : name ≠ entry.1 ∧ name ∉ rest.map Prod.fst := by simpa using new
      simp [putEntry, apart.1, ih apart.2]

theorem names_put_of_new {b : Bindings α} {name : String} (new : name ∉ b.names) (value : α) :
    (b.put name value).names = b.names ++ [name] := by
  simp [names, entries_put_of_new new]

/-- Of the entries that are put in order, the last one of a name counts. -/
theorem get?_putAll (b : Bindings α) (entries : List (String × α)) (name : String) :
    (b.putAll entries).get? name = (entries.reverse.lookup name).or (b.get? name) := by
  induction entries generalizing b with
  | nil => rfl
  | cons entry rest ih =>
    have first : b.putAll (entry :: rest) = (b.put entry.1 entry.2).putAll rest := rfl
    rw [first, ih, List.reverse_cons, List.lookup_append, Option.or_assoc]
    congr 1
    by_cases same : name = entry.1
    · subst same
      simp [get?_put_self, List.lookup]
    · have apart : (name == entry.1) = false := by simpa using same
      simp [get?_put_of_ne _ _ same, List.lookup, apart]

end Bindings

theorem lookup_flatMap {α β : Type} (tables : List β) (entries : β → List (String × α)) (name : String) :
    (tables.flatMap entries).lookup name = tables.findSome? fun table => (entries table).lookup name := by
  induction tables with
  | nil => rfl
  | cons table _ ih =>
    rw [List.flatMap_cons, List.lookup_append, ih, List.findSome?_cons]
    cases (entries table).lookup name <;> rfl

theorem lookup_map {α β : Type} (f : α → β) (entries : List (String × α)) (name : String) :
    (entries.map fun entry => (entry.1, f entry.2)).lookup name = (entries.lookup name).map f := by
  induction entries with
  | nil => rfl
  | cons entry _ ih =>
    by_cases same : name = entry.1
    · simp [List.lookup, same]
    · have apart : (name == entry.1) = false := by simpa using same
      simp [List.lookup, apart, ih]

/-! ### Functions of declarations -/

namespace Closure

def name (f : Closure) : String := f.decl.name.lexeme

def entry (f : Closure) : String × Closure := (f.name, f)

end Closure

/-- The functions that are made from declarations in order, numbered from `id` on. -/
def closuresFrom (isInitializer : FunDecl → Bool) (frames : Frames) (id : Nat) : List FunDecl → List Closure
  | [] => []
  | decl :: rest => ⟨id, decl, frames, isInitializer decl⟩ :: closuresFrom isInitializer frames (id + 1) rest

/-- Functions are made from declarations, one from each and in order, with the frames in sight. -/
structure MadeFrom (isInitializer : FunDecl → Bool) (frames : Frames) (decls : List FunDecl)
    (fs : List Closure) : Prop where
  decls : fs.map Closure.decl = decls
  frames : ∀ f ∈ fs, f.frames = frames
  kind : ∀ f ∈ fs, f.isInitializer = isInitializer f.decl

theorem madeFrom_closuresFrom (isInitializer : FunDecl → Bool) (frames : Frames) (id : Nat)
    (decls : List FunDecl) : MadeFrom isInitializer frames decls (closuresFrom isInitializer frames id decls) := by
  induction decls generalizing id with
  | nil => exact ⟨rfl, by simp [closuresFrom], by simp [closuresFrom]⟩
  | cons _ _ ih =>
    have others := ih (id + 1)
    refine ⟨?_, ?_, ?_⟩
    · rw [closuresFrom, List.map_cons, others.decls]
    · intro f member
      rcases List.mem_cons.mp member with rfl | member
      · rfl
      · exact others.frames f member
    · intro f member
      rcases List.mem_cons.mp member with rfl | member
      · rfl
      · exact others.kind f member

/-- The last of some functions with a name. -/
def lastNamed? (fs : List Closure) (name : String) : Option Closure := fs.reverse.find? (·.name = name)

theorem lookup_reverse_entries {α : Type} (make : Closure → α) (fs : List Closure) (name : String) :
    ((fs.map fun f => (f.name, make f)).reverse.lookup name) = (lastNamed? fs name).map make := by
  rw [lastNamed?, ← List.map_reverse]
  induction fs.reverse with
  | nil => rfl
  | cons f _ ih =>
    by_cases same : f.name = name
    · simp [same]
    · have apart : (name == f.name) = false := by simpa using Ne.symm same
      simp [List.lookup, apart, same, ih]

/-! ### Looking names up -/

def Ending.isError : Ending → Bool
  | .failed _ | .crashed _ => true
  | .broke | .returned _ | .outOfFuel => false

namespace Eval

variable {α β : Type}

/-- A computation leaves the machine as it is, and if it fails, then with an error. -/
def Looks (x : Eval α) : Prop :=
  ∀ m, (∃ a, x m = .ok a m) ∨ ∃ ending, x m = .error ending m ∧ ending.isError = true

theorem Looks.of_ok {x : Eval α} (looks : Looks x) {a : α} (ends : x m = .ok a m') : m' = m := by
  rcases looks m with ⟨_, same⟩ | ⟨_, same, -⟩
  · exact (EStateM.Result.ok.inj (ends.symm.trans same)).2
  · cases ends.symm.trans same

theorem looks_pure (a : α) : Looks (pure a : Eval α) := fun _ => .inl ⟨a, rfl⟩

theorem looks_fail (token : Token) (cause : Cause) : Looks (fail token cause : Eval α) := fun _ => .inr ⟨_, rfl, rfl⟩

theorem looks_crash (fault : Fault) : Looks (crash fault : Eval α) := fun _ => .inr ⟨_, rfl, rfl⟩

theorem looks_get : Looks (get : Eval Machine) := fun m => .inl ⟨m, rfl⟩

theorem looks_scope : Looks scope := fun m => .inl ⟨m.scope, rfl⟩

theorem Looks.bind {x : Eval α} {f : α → Eval β} (first : Looks x) (next : ∀ a, Looks (f a)) : Looks (x >>= f) := by
  intro m
  rcases first m with ⟨a, ends⟩ | ⟨ending, ends, isError⟩
  · rw [bind_of_ok ends]
    exact next a m
  · exact .inr ⟨ending, bind_of_error ends, isError⟩

theorem looks_getAt (chain : Frames) (depth : Nat) (name : String) : Looks (getAt chain depth name) := by
  refine Looks.bind ?_ fun id => looks_get.bind fun m => looks_pure _
  unfold ancestor
  split
  · exact looks_pure _
  · exact looks_crash _

theorem looks_getNamed (chain : Frames) (name : Token) : Looks (getNamed chain name) := by
  refine looks_get.bind fun m => ?_
  split
  · exact looks_pure _
  · exact looks_fail name _

theorem looks_readName (name : Token) (depth : Option Nat) : Looks (readName name depth) := by
  cases depth with
  | none => exact looks_getNamed _ _
  | some => exact looks_scope.bind fun _ => looks_getAt _ _ _

theorem looks_readTrait (ref : NameRef) : Looks (readTrait ref) := by
  refine (looks_readName _ _).bind fun value => ?_
  split
  · exact looks_pure _
  · exact looks_crash _

theorem looks_readSuperclass (base : Option NameRef) : Looks (readSuperclass base) := by
  cases base with
  | none => exact looks_pure none
  | some =>
    refine (looks_readName _ _).bind fun value => ?_
    split
    · exact looks_pure _
    · exact looks_crash _

theorem looks_includeTraits (methods : Bindings Closure) (refs : List NameRef) :
    Looks (includeTraits methods refs) := by
  induction refs generalizing methods with
  | nil => exact looks_pure methods
  | cons ref _ ih =>
    refine (looks_readTrait ref).bind fun t => ?_
    split
    · exact ih _
    · exact looks_crash _

end Eval

/-! ### Tables of methods -/

theorem nodup_concat {seen : List String} {name : String} (distinct : seen.Nodup) (new : name ∉ seen) :
    (seen ++ [name]).Nodup := by
  simpa using distinct.concat new

/-- Methods can be taken up exactly if no name occurs twice. -/
theorem includeMethods_spec (distinct : methods.names.Nodup) (entries : List (String × Closure)) :
    match includeMethods methods entries with
    | .ok all => all.names = methods.names ++ entries.map Prod.fst ∧ all.names.Nodup
    | .error _ => ¬ (methods.names ++ entries.map Prod.fst).Nodup := by
  induction entries generalizing methods with
  | nil => simpa [includeMethods] using distinct
  | cons entry _ ih =>
    obtain ⟨name, f⟩ := entry
    by_cases known : name ∈ methods.names
    · simp only [includeMethods, Bindings.contains_iff.mpr known, if_true, List.map_cons]
      intro nodup
      exact (List.nodup_append.mp nodup).2.2 name known name (by simp) rfl
    · have fresh : methods.contains name = false := by simpa using mt Bindings.contains_iff.mp known
      have names := Bindings.names_put_of_new known f
      have step := ih (names ▸ nodup_concat distinct known)
      simp only [includeMethods, fresh, names, List.append_assoc, List.singleton_append] at step ⊢
      exact step

theorem includeMethods_ok {all : Bindings Closure} {entries : List (String × Closure)}
    (taken : includeMethods methods entries = .ok all) : all.entries = methods.entries ++ entries := by
  induction entries generalizing methods with
  | nil =>
    cases taken
    simp
  | cons entry rest ih =>
    obtain ⟨name, f⟩ := entry
    rw [includeMethods] at taken
    split at taken
    · cases taken
    · rename_i fresh
      have new : name ∉ methods.names := mt Bindings.contains_iff.mpr fresh
      rw [ih taken, Bindings.entries_put_of_new new, List.append_assoc, List.singleton_append]

namespace Eval

/-- The traits that some names refer to. -/
def ReadTraits (m : Machine) (refs : List NameRef) (traits : List Trait) : Prop :=
  List.Forall₂ (fun ref t => readTrait ref m = .ok t m) refs traits

theorem ReadTraits.eq {refs : List NameRef} {traits others : List Trait} (reads : ReadTraits m refs traits)
    (again : ReadTraits m refs others) : traits = others := by
  induction reads generalizing others with
  | nil => exact (List.forall₂_nil_left_iff.mp again).symm
  | cons read _ ih =>
    obtain ⟨t, rest, read', others, rfl⟩ := List.forall₂_cons_left_iff.mp again
    rw [(EStateM.Result.ok.inj (read.symm.trans read')).1, ih others]

/-- Traits are taken up exactly if the names refer to traits and no name of a method occurs twice. -/
theorem includeTraits_cases (m : Machine) (distinct : methods.names.Nodup) (refs : List NameRef) :
    (∃ all traits, includeTraits methods refs m = .ok all m ∧ ReadTraits m refs traits ∧ all.names.Nodup ∧
      all.entries = methods.entries ++ traits.flatMap (·.methods.entries)) ∨
    ∃ ending, includeTraits methods refs m = .error ending m ∧ ending.isError = true ∧
      ∀ traits, ReadTraits m refs traits → ¬ (methods.names ++ traits.flatMap (·.methods.names)).Nodup := by
  induction refs generalizing methods with
  | nil => exact .inl ⟨methods, [], rfl, .nil, distinct, by simp⟩
  | cons ref _ ih =>
    rcases looks_readTrait ref m with ⟨t, read⟩ | ⟨ending, failed, isError⟩
    · have same {u : Trait} (read' : readTrait ref m = .ok u m) : t = u :=
        (EStateM.Result.ok.inj (read.symm.trans read')).1
      have spec := includeMethods_spec distinct t.methods.entries
      rw [includeTraits, bind_of_ok read]
      cases included : includeMethods methods t.methods.entries with
      | error =>
        rw [included] at spec
        refine .inr ⟨_, rfl, rfl, ?_⟩
        rintro _ (_ | ⟨read', others⟩) nodup
        obtain rfl := same read'
        rw [List.flatMap_cons, ← List.append_assoc] at nodup
        exact spec (List.nodup_append.mp nodup).1
      | ok =>
        rw [included] at spec
        refine (ih spec.2).imp ?_ ?_
        · rintro ⟨all, traits, taken, reads, distinct, entries⟩
          refine ⟨all, t :: traits, taken, .cons read reads, distinct, ?_⟩
          rw [entries, includeMethods_ok included, List.flatMap_cons, List.append_assoc]
        · rintro ⟨ending, failed, isError, cannot⟩
          refine ⟨ending, failed, isError, ?_⟩
          rintro _ (_ | ⟨read', others⟩) nodup
          obtain rfl := same read'
          refine cannot _ others ?_
          rwa [spec.1, List.append_assoc]
    · refine .inr ⟨ending, bind_of_error failed, isError, ?_⟩
      rintro _ (_ | ⟨read', -⟩) -
      cases failed.symm.trans read'

theorem addMethods_eq (isInitializer : FunDecl → Bool) (methods : Bindings Method) (decls : List FunDecl)
    (m : Machine) : addMethods isInitializer methods decls m =
      .ok (methods.putAll ((closuresFrom isInitializer m.scope m.fresh decls).map fun f => (f.name, .closure f)))
        { m with fresh := m.fresh + decls.length } := by
  induction decls generalizing methods m with
  | nil => rfl
  | cons decl _ ih =>
    refine (ih (methods.put decl.name.lexeme (.closure ⟨m.fresh, decl, m.scope, isInitializer decl⟩))
      { m with fresh := m.fresh + 1 }).trans ?_
    rw [List.length_cons, Nat.add_right_comm, Nat.add_assoc]
    rfl

/-- A trait's own methods are taken up only if all of their names are new. -/
theorem addTraitMethods_cases (distinct : methods.names.Nodup) (decls : List FunDecl) (m : Machine) :
    (∃ ending fresh, ending.isError = true ∧
      addTraitMethods methods decls m = .error ending { m with fresh := fresh }) ∨
    ∃ all, addTraitMethods methods decls m = .ok all { m with fresh := m.fresh + decls.length } ∧ all.names.Nodup ∧
      all.entries = methods.entries ++ (closuresFrom (fun _ => false) m.scope m.fresh decls).map Closure.entry := by
  induction decls generalizing methods m with
  | nil => exact .inr ⟨methods, rfl, distinct, by simp [closuresFrom]⟩
  | cons decl rest ih =>
    by_cases known : decl.name.lexeme ∈ methods.names
    · refine .inl ⟨.crashed (.declaration (.declaredByTrait decl.name.lexeme)), m.fresh, rfl, ?_⟩
      rw [addTraitMethods, if_pos (Bindings.contains_iff.mpr known)]
      rfl
    · let f : Closure := ⟨m.fresh, decl, m.scope, false⟩
      let m₁ : Machine := { m with fresh := m.fresh + 1 }
      have step : addTraitMethods methods (decl :: rest) m =
          addTraitMethods (methods.put decl.name.lexeme f) rest m₁ := by
        rw [addTraitMethods, if_neg (mt Bindings.contains_iff.mp known)]
        rfl
      have distinct' : (methods.put decl.name.lexeme f).names.Nodup :=
        Bindings.names_put_of_new known f ▸ nodup_concat distinct known
      rw [step]
      rcases ih distinct' m₁ with ⟨ending, fresh, isError, ends⟩ | ⟨all, ends, distinct, entries⟩
      · exact .inl ⟨ending, fresh, isError, ends⟩
      · refine .inr ⟨all, ?_, distinct, ?_⟩
        · rw [ends, List.length_cons, Nat.add_comm rest.length, ← Nat.add_assoc]
        · rw [entries, Bindings.entries_put_of_new known, List.append_assoc]
          rfl

end Eval

/-! ### Making classes and traits -/

namespace Machine

theorem lookup?_global (m : Machine) (name : String) : m.lookup? globalFrames name = (m.frame 0).get? name := by
  simp only [lookup?, findFrame?, globalFrames, List.find?_cons, List.find?_nil]
  cases bound : (m.frame 0).get? name <;> simp [Bindings.contains, bound]

/-- The machine with a name bound in the innermost frame in sight. -/
def defining (m : Machine) (name : String) (value : Value) : Machine :=
  match m.scope with
  | [] => m
  | inner :: _ => m.bind inner name value

/-- The machine with a frame in sight in which methods find the class that their class extends. -/
def entering (m : Machine) : Option Class → Machine
  | none => m
  | some base =>
    { m with
      frames := m.frames.push (Bindings.empty.put superName (.classObject base))
      scope := m.frames.size :: m.scope }

/-- The machine in which the class of a declaration is made. -/
def classSite (m : Machine) (decl : ClassDecl) (base : Option Class) : Machine :=
  (m.defining decl.name.lexeme .nil).entering base

def classFunctions (m : Machine) (decl : ClassDecl) : List Closure :=
  closuresFrom (fun _ => false) m.scope m.fresh decl.classMethods

def instanceFunctions (m : Machine) (decl : ClassDecl) : List Closure :=
  closuresFrom (fun method => method.name.lexeme = initName) m.scope (m.fresh + decl.classMethods.length) decl.methods

/-- The class that is made from a declaration, the class it extends and the traits it includes. -/
def classOf (m : Machine) (decl : ClassDecl) (base : Option Class) (traits : List Trait) : Class where
  id := m.fields.size + 1
  name := decl.name.lexeme
  superclass := base
  metaclass := some {
    id := m.fields.size
    name := decl.name.lexeme ++ " metaclass"
    superclass := base
    metaclass := none
    methods := Bindings.empty.putAll ((m.classFunctions decl).map fun f => (f.name, .closure f)) }
  methods := Bindings.putAll ⟨(traits.flatMap (·.methods.entries)).map fun entry => (entry.1, .closure entry.2)⟩
    ((m.instanceFunctions decl).map fun f => (f.name, .closure f))

def traitFunctions (m : Machine) (decl : TraitDecl) : List Closure :=
  closuresFrom (fun _ => false) m.scope m.fresh decl.methods

/-- The trait that is made from a declaration and the traits it includes. -/
def traitOf (m : Machine) (decl : TraitDecl) (traits : List Trait) : Trait where
  id := m.fresh + decl.methods.length
  name := decl.name
  methods := ⟨traits.flatMap (·.methods.entries) ++ (m.traitFunctions decl).map Closure.entry⟩

theorem scope_defining (m : Machine) (name : String) (value : Value) : (m.defining name value).scope = m.scope := by
  unfold defining
  split <;> rfl

end Machine

namespace Eval

theorem define_eq (m : Machine) (name : String) (value : Value) :
    define name value m = .ok () (m.defining name value) := by
  have chain : scope m = .ok m.scope m := rfl
  rw [define, bind_of_ok chain, Machine.defining]
  cases m.scope <;> rfl

theorem scope_defining_eq (m : Machine) (name : String) (value : Value) :
    scope (m.defining name value) = .ok m.scope (m.defining name value) := by
  rw [← m.scope_defining name value]
  rfl

theorem enterSubclass_eq (m : Machine) (base : Option Class) : enterSubclass base m = .ok () (m.entering base) := by
  cases base <;> rfl

theorem readName_global (m : Machine) (name : Token) :
    readName name none m = match m.lookup? globalFrames name.lexeme with
      | some value => .ok value m
      | none => .error (.error name (.undefinedVariable name.lexeme)) m := by
  simp only [readName, getNamed, bind, EStateM.bind, get, getThe, MonadStateOf.get, EStateM.get]
  cases m.lookup? globalFrames name.lexeme <;> rfl

theorem readName_local (m : Machine) (name : Token) (d : Nat) :
    readName name (some d) m = match m.scope[d]? with
      | some id => .ok (((m.frame id).get? name.lexeme).getD .nil) m
      | none => .error (.crashed .scopeTooDeep) m := by
  have chain : scope m = .ok m.scope m := rfl
  rw [readName, bind_of_ok chain, getAt, ancestor]
  cases m.scope[d]? <;> rfl

theorem readName_congr (frames : m'.frames = m.frames) (chain : m'.scope = m.scope) (name : Token)
    (depth : Option Nat) {value : Value} (read : readName name depth m = .ok value m) :
    readName name depth m' = .ok value m' := by
  cases depth with
  | none =>
    have same : m'.lookup? globalFrames name.lexeme = m.lookup? globalFrames name.lexeme := by
      rw [Machine.lookup?_global, Machine.lookup?_global, Machine.frame, frames, ← Machine.frame]
    rw [readName_global] at read ⊢
    rw [same]
    split at read
    · cases read
      rfl
    · cases read
  | some =>
    rw [readName_local] at read ⊢
    rw [chain]
    split at read
    · cases read
      simp only [Machine.frame, frames]
    · cases read

theorem readTrait_congr (frames : m'.frames = m.frames) (chain : m'.scope = m.scope) {ref : NameRef} {t : Trait}
    (read : readTrait ref m' = .ok t m') : readTrait ref m = .ok t m := by
  rcases looks_readName ref.name ref.depth m' with ⟨value, named⟩ | ⟨ending, named, -⟩
  · have named' := readName_congr frames.symm chain.symm ref.name ref.depth named
    rw [readTrait, bind_of_ok named] at read
    rw [readTrait, bind_of_ok named']
    cases value with
    | trait =>
      cases read
      rfl
    | _ => cases read
  · rw [readTrait, bind_of_error named] at read
    cases read

theorem makeClass_cases (m : Machine) (decl : ClassDecl) (base : Option Class) :
    (∃ traits, ReadTraits m decl.traits traits ∧ (traits.flatMap (·.methods.names)).Nodup ∧
      makeClass decl base m = .ok (m.classOf decl base traits)
        { m with
          fresh := m.fresh + decl.classMethods.length + decl.methods.length
          fields := (m.fields.push .empty).push .empty }) ∨
    ∃ ending, ending.isError = true ∧ makeClass decl base m =
      .error ending { m with fresh := m.fresh + decl.classMethods.length, fields := m.fields.push .empty } ∧
      ∀ traits, ReadTraits m decl.traits traits → ¬ (traits.flatMap (·.methods.names)).Nodup := by
  let m₁ : Machine := { m with fresh := m.fresh + decl.classMethods.length, fields := m.fields.push .empty }
  have own := addMethods_eq (fun _ => false) .empty decl.classMethods m
  have object : newObject { m with fresh := m.fresh + decl.classMethods.length } = .ok m.fields.size m₁ := rfl
  rw [makeClass, bind_of_ok own, bind_of_ok object]
  have same (ref : NameRef) (t : Trait) : readTrait ref m₁ = .ok t m₁ ↔ readTrait ref m = .ok t m :=
    by
    refine ⟨readTrait_congr ?_ ?_, readTrait_congr ?_ ?_⟩ <;> rfl
  rcases includeTraits_cases m₁ (show Bindings.empty.names.Nodup from .nil) decl.traits with
    ⟨all, traits, included, reads, distinct, entries⟩ | ⟨ending, included, isError, cannot⟩
  · left
    have names : all.names = traits.flatMap (·.methods.names) := by
      rw [Bindings.names, entries, List.map_append, List.map_flatMap]
      rfl
    refine ⟨traits, reads.imp fun ref t => (same ref t).mp, names ▸ distinct, ?_⟩
    have methods := addMethods_eq (fun method => method.name.lexeme = initName)
      ⟨all.entries.map fun entry => (entry.1, .closure entry.2)⟩ decl.methods m₁
    have second : newObject { m₁ with fresh := m₁.fresh + decl.methods.length } = .ok (m.fields.size + 1)
        { m₁ with fresh := m₁.fresh + decl.methods.length, fields := m₁.fields.push .empty } := by
      rw [newObject, Array.size_push]
    refine (bind_of_ok included).trans ((bind_of_ok methods).trans ((bind_of_ok second).trans ?_))
    rw [entries]
    rfl
  · exact .inr ⟨ending, isError, bind_of_error included, fun traits reads =>
      cannot traits (reads.imp fun ref t => (same ref t).mpr)⟩

/-- Once the class that a class extends has been read, its own class is made at its site, and bound. -/
theorem declareClass_of_read {decl : ClassDecl} {base : Option Class}
    (read : readSuperclass decl.superclass m = .ok base m) :
    (∃ ending m', makeClass decl base (m.classSite decl base) = .error ending m' ∧
      declareClass decl m = .error ending m') ∨
    ∃ c m', makeClass decl base (m.classSite decl base) = .ok c m' ∧
      declareClass decl m = assignNamed m.scope decl.name (.classObject c) { m' with scope := m.scope } := by
  have made : declareClass decl m = (do
      let c ← makeClass decl base
      setScope m.scope
      assignNamed m.scope decl.name (.classObject c)) (m.classSite decl base) := by
    rw [declareClass, bind_of_ok read, bind_of_ok (define_eq ..), bind_of_ok (scope_defining_eq ..),
      bind_of_ok (enterSubclass_eq ..)]
    rfl
  rw [made]
  cases ends : makeClass decl base (m.classSite decl base) with
  | error ending m' => exact .inl ⟨ending, m', rfl, bind_of_error ends⟩
  | ok c m' => exact .inr ⟨c, m', rfl, bind_of_ok ends⟩

/-- A class declaration fails at the class it extends, or at the traits it includes; or the class is made and bound. -/
theorem declareClass_cases (m : Machine) (decl : ClassDecl) :
    (∃ ending, ending.isError = true ∧ declareClass decl m = .error ending m) ∨
    ∃ base, readSuperclass decl.superclass m = .ok base m ∧
      ((∃ ending m', makeClass decl base (m.classSite decl base) = .error ending m' ∧
          declareClass decl m = .error ending m') ∨
        ∃ c m', makeClass decl base (m.classSite decl base) = .ok c m' ∧
          declareClass decl m = assignNamed m.scope decl.name (.classObject c) { m' with scope := m.scope }) := by
  rcases looks_readSuperclass decl.superclass m with ⟨base, read⟩ | ⟨ending, read, isError⟩
  · exact .inr ⟨base, read, declareClass_of_read read⟩
  · exact .inl ⟨ending, isError, bind_of_error read⟩

/-- A trait declaration fails at the traits it includes, or at a method of its own; or the trait is made and bound. -/
theorem declareTrait_cases (m : Machine) (decl : TraitDecl) :
    let site := m.defining decl.name.lexeme .nil
    (∃ ending fresh, ending.isError = true ∧ declareTrait decl m = .error ending { site with fresh := fresh }) ∨
    ∃ traits, ReadTraits site decl.traits traits ∧ (site.traitOf decl traits).methods.names.Nodup ∧
      declareTrait decl m = assignNamed m.scope decl.name (.trait (site.traitOf decl traits))
        { site with fresh := site.fresh + decl.methods.length + 1 } := by
  intro site
  rw [declareTrait, bind_of_ok (define_eq m decl.name.lexeme .nil)]
  rcases includeTraits_cases site (show Bindings.empty.names.Nodup from .nil) decl.traits with
    ⟨included, traits, taken, reads, distinct, entries⟩ | ⟨ending, taken, isError, -⟩
  · rw [bind_of_ok taken]
    rcases addTraitMethods_cases distinct decl.methods site with
      ⟨ending, fresh, isError, ends⟩ | ⟨all, ends, distinct, whole⟩
    · exact .inl ⟨ending, fresh, isError, bind_of_error ends⟩
    · have table : all = (site.traitOf decl traits).methods := by
        obtain ⟨list⟩ := all
        change list = _ at whole
        rw [whole, entries]
        rfl
      refine .inr ⟨traits, reads, table ▸ distinct, (bind_of_ok ends).trans ?_⟩
      rw [table, ← show site.scope = m.scope from m.scope_defining _ _]
      rfl
  · exact .inl ⟨ending, site.fresh, isError, bind_of_error taken⟩

end Eval

end LoxLang
