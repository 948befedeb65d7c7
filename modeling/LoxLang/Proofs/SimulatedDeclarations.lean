import LoxLang.Proofs.Layouts

/-!
Classes and traits in a simulation. Declarations that go together make classes that go together, if the traits that they
name are read alike and if functions and objects are made alike.
-/

namespace LoxLang

open Eval

variable {methods methods' : Bindings Closure}

theorem includeMethods_paired {R : Closure → Closure → Prop} (paired : methods.Paired R methods')
    {entries entries' : List (String × Closure)}
    (added : List.Forall₂ (fun entry entry' => entry'.1 = entry.1 ∧ R entry.2 entry'.2) entries entries') :
    (∃ all all', includeMethods methods entries = .ok all ∧ includeMethods methods' entries' = .ok all' ∧
        all.Paired R all') ∨
      ∃ fault, includeMethods methods entries = .error fault ∧ includeMethods methods' entries' = .error fault := by
  induction added generalizing methods methods' with
  | nil => exact .inl ⟨_, _, rfl, rfl, paired⟩
  | @cons entry entry' rest rest' both _ ih =>
    obtain ⟨name, f⟩ := entry
    obtain ⟨_, f'⟩ := entry'
    obtain ⟨same, related⟩ := both
    obtain rfl := same.symm
    rw [includeMethods, includeMethods, paired.contains]
    cases methods.contains name with
    | true => exact .inr ⟨_, rfl, rfl⟩
    | false => exact ih (paired.put name related)

namespace Simulation

variable {World : Type} {S : Simulation World}

/-- The names and functions that go together in declarations, with what is made of them. -/
structure Declares (S : Simulation World) where
  Refs : World → NameRef → NameRef → Prop
  Decls : World → FunDecl → FunDecl → Prop
  Closures : World → Closure → Closure → Prop
  lexeme_eq : ∀ {w f f'}, Decls w f f' → f'.name.lexeme = f.name.lexeme
  refs_mono : ∀ {w u m m' ref ref'}, S.Machines w m m' → S.Later w u → Refs w ref ref' → Refs u ref ref'
  decls_mono : ∀ {w u m m' f f'}, S.Machines w m m' → S.Later w u → Decls w f f' → Decls u f f'
  closures_mono : ∀ {w u f f'}, S.Later w u → Closures w f f' → Closures u f f'
  methods_mono : ∀ {w u f f'}, S.Later w u → (S.kinds w).methods f f' → (S.kinds u).methods f f'
  method : ∀ {w f f'}, Closures w f f' → (S.kinds w).methods (.closure f) (.closure f')
  trait_methods : ∀ {w t t'}, (S.kinds w).traits t t' → t.methods.Paired (Closures w) t'.methods
  readName : ∀ {w m m' ref ref'}, S.Machines w m m' → Refs w ref ref' →
    S.Follows w m m' (readName ref.name ref.depth) (readName ref'.name ref'.depth) S.Values
  notTrait : ∀ {w m m' ref ref'}, S.Machines w m m' → Refs w ref ref' →
    S.Follows w m m' (crash (.declaration (.notTrait ref.name.lexeme)))
      (crash (.declaration (.notTrait ref'.name.lexeme))) fun u => (S.kinds u).traits
  makeClosure : ∀ {w m m' f f'} isInitializer, S.Machines w m m' → Decls w f f' →
    S.Follows w m m' (makeClosure f isInitializer) (makeClosure f' isInitializer) Closures
  newClass : ∀ {w m m' base base' owner owner' table table'} name, S.Machines w m m' →
    Option.Rel (S.kinds w).classes base base' → Option.Rel (S.kinds w).classes owner owner' →
    table.Paired (S.kinds w).methods table' → S.Follows w m m' Eval.newObject Eval.newObject fun u id id' =>
      id = id' ∧ (S.kinds u).classes ⟨id, name, base, owner, table⟩ ⟨id, name, base', owner', table'⟩

namespace Declares

abbrev Tables (d : S.Declares) (w : World) : Bindings Closure → Bindings Closure → Prop := Bindings.Paired (d.Closures w)

variable (d : S.Declares) {w : World} {m m' : Machine} (pair : S.Machines w m m')
include d pair

theorem readTrait {ref ref' : NameRef} (name : d.Refs w ref ref') :
    S.Follows w m m' (readTrait ref) (readTrait ref') fun u => (S.kinds u).traits := by
  refine (d.readName pair name).bind pair ?_
  intro u value value' m₁ m₁' later after alike
  cases S.ofKind alike with
  | trait related => exact follows_pure after related
  | _ => exact d.notTrait after (d.refs_mono pair later name)

theorem readSuperclass {ref ref' : Option NameRef} (names : Option.Rel (d.Refs w) ref ref') :
    S.Follows w m m' (readSuperclass ref) (readSuperclass ref') fun u base base' =>
      Option.Rel (S.kinds u).classes base base' ∧ base.isSome = ref.isSome := by
  cases names with
  | none => exact follows_pure pair ⟨.none, rfl⟩
  | some name =>
    refine (d.readName pair name).bind pair ?_
    intro u value value' m₁ m₁' later after alike
    cases S.ofKind alike with
    | classObject related => exact follows_pure after ⟨.some related, rfl⟩
    | _ => exact follows_crash after rfl

theorem includeTraits (tables : d.Tables w methods methods') {refs refs' : List NameRef}
    (names : List.Forall₂ (d.Refs w) refs refs') :
    S.Follows w m m' (includeTraits methods refs) (includeTraits methods' refs') d.Tables := by
  induction refs generalizing w m m' methods methods' refs' with
  | nil =>
    cases names
    exact follows_pure pair tables
  | cons _ _ ih =>
    obtain ⟨ref', rest', name, others, rfl⟩ := List.forall₂_cons_left_iff.mp names
    refine (d.readTrait pair name).bind pair ?_
    intro u t t' m₁ m₁' later after traits
    have kept : d.Tables u methods methods' := Bindings.Alike.imp tables fun _ _ => d.closures_mono later
    rcases includeMethods_paired kept (d.trait_methods traits) with
      ⟨_, _, taken, taken', tables⟩ | ⟨_, failed, failed'⟩
    · simp only [taken, taken']
      exact ih after tables (others.imp fun _ _ => d.refs_mono pair later)
    · simp only [failed, failed']
      exact follows_crash after rfl

theorem addMethods {isInitializer : FunDecl → Bool} {methods methods' : Bindings Method}
    (byName : ∀ f f' : FunDecl, f'.name.lexeme = f.name.lexeme → isInitializer f' = isInitializer f)
    (paired : methods.Paired (S.kinds w).methods methods') {decls decls' : List FunDecl}
    (members : List.Forall₂ (d.Decls w) decls decls') :
    S.Follows w m m' (addMethods isInitializer methods decls) (addMethods isInitializer methods' decls')
      fun u => Bindings.Paired (S.kinds u).methods := by
  induction decls generalizing w m m' methods methods' decls' with
  | nil =>
    cases members
    exact follows_pure pair paired
  | cons decl _ ih =>
    obtain ⟨decl', rest', first, others, rfl⟩ := List.forall₂_cons_left_iff.mp members
    rw [addMethods, addMethods, d.lexeme_eq first, byName decl decl' (d.lexeme_eq first)]
    refine (d.makeClosure _ pair first).bind pair ?_
    intro u f f' m₁ m₁' later after related
    have kept : methods.Paired (S.kinds u).methods methods' := Bindings.Alike.imp paired fun _ _ => d.methods_mono later
    exact ih after (kept.put decl.name.lexeme (d.method related)) (others.imp fun _ _ => d.decls_mono pair later)

theorem addTraitMethods (tables : d.Tables w methods methods') {decls decls' : List FunDecl}
    (members : List.Forall₂ (d.Decls w) decls decls') :
    S.Follows w m m' (addTraitMethods methods decls) (addTraitMethods methods' decls') d.Tables := by
  induction decls generalizing w m m' methods methods' decls' with
  | nil =>
    cases members
    exact follows_pure pair tables
  | cons decl _ ih =>
    obtain ⟨decl', rest', first, others, rfl⟩ := List.forall₂_cons_left_iff.mp members
    rw [addTraitMethods, addTraitMethods, d.lexeme_eq first, Bindings.Paired.contains tables]
    refine .ite (follows_crash pair rfl) ((d.makeClosure _ pair first).bind pair ?_)
    intro u f f' m₁ m₁' later after related
    have kept : d.Tables u methods methods' := Bindings.Alike.imp tables fun _ _ => d.closures_mono later
    exact ih after (kept.put decl.name.lexeme related) (others.imp fun _ _ => d.decls_mono pair later)

theorem makeClass {decl decl' : ClassDecl} {base base' : Option Class} (name : decl'.name.lexeme = decl.name.lexeme)
    (bases : Option.Rel (S.kinds w).classes base base')
    (own : List.Forall₂ (d.Decls w) decl.classMethods decl'.classMethods)
    (members : List.Forall₂ (d.Decls w) decl.methods decl'.methods)
    (traits : List.Forall₂ (d.Refs w) decl.traits decl'.traits) :
    S.Follows w m m' (Eval.makeClass decl base) (Eval.makeClass decl' base') fun u => (S.kinds u).classes := by
  have basesLater {u u' : World} (later : S.Later u u') (bases : Option.Rel (S.kinds u).classes base base') :
      Option.Rel (S.kinds u').classes base base' := by
    cases bases with
    | none => exact .none
    | some related => exact .some (S.classes_mono later related)
  rw [Eval.makeClass, Eval.makeClass, name]
  refine (d.addMethods pair (fun _ _ _ => rfl) Bindings.alike_empty own).bind pair ?_
  intro u₁ ownTable ownTable' m₁ m₁' later₁ pair₁ ownTables
  have owner := d.newClass (decl.name.lexeme ++ " metaclass") pair₁ (basesLater later₁ bases) .none ownTables
  refine owner.bind pair₁ ?_
  rintro u₂ id _ m₂ m₂' later₂ pair₂ ⟨rfl, owners⟩
  have later := S.later_trans later₁ later₂
  have traits₂ := traits.imp fun _ _ => d.refs_mono pair later
  refine (d.includeTraits pair₂ Bindings.alike_empty traits₂).bind pair₂ ?_
  intro u₃ included included' m₃ m₃' later₃ pair₃ tables
  have inherited : Bindings.Paired (S.kinds u₃).methods ⟨included.entries.map fun entry => (entry.1, .closure entry.2)⟩
      ⟨included'.entries.map fun entry => (entry.1, .closure entry.2)⟩ := by
    refine List.forall₂_map_left_iff.mpr (List.forall₂_map_right_iff.mpr ?_)
    exact List.Forall₂.imp (fun _ _ both => ⟨both.1, d.method both.2⟩) tables
  have members₃ := members.imp fun _ _ => d.decls_mono pair (S.later_trans later later₃)
  refine (d.addMethods pair₃ (fun f f' same => by rw [same]) inherited members₃).bind pair₃ ?_
  intro u₄ table table' m₄ m₄' later₄ pair₄ tables
  have later₂₄ := S.later_trans later₃ later₄
  have bases₄ := basesLater (S.later_trans later later₂₄) bases
  have owners₄ := S.classes_mono later₂₄ owners
  refine (d.newClass decl.name.lexeme pair₄ bases₄ (.some owners₄) tables).bind pair₄ ?_
  rintro u₅ number _ m₅ m₅' - pair₅ ⟨rfl, related⟩
  exact follows_pure pair₅ related

end Declares

end Simulation

end LoxLang
