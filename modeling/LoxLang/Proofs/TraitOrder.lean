import LoxLang.Proofs.Crashes
import LoxLang.Proofs.MethodLookup

/-!
The order of traits. Traits that a declaration includes can be taken up unless two of them have a method of the same
name, in whichever order they are listed; and once they are, a name leads to the function of the one trait that has it.
So a class has the same methods however its traits are listed.
-/

namespace LoxLang

variable {name : String} {t : Trait} {traits : List Trait} {refs refs' : List NameRef} {m' : Machine}

/-! ### Tables with each name once -/

theorem Bindings.get?_eq_some_iff {α : Type} {b : Bindings α} (distinct : b.names.Nodup) {value : α} :
    b.get? name = some value ↔ (name, value) ∈ b.entries := by
  obtain ⟨entries⟩ := b
  simp only [get?, names] at distinct ⊢
  induction entries with
  | nil => simp
  | cons entry rest ih =>
    obtain ⟨key, first⟩ := entry
    obtain ⟨absent, distinct⟩ := List.nodup_cons.mp distinct
    by_cases same : name = key
    · subst same
      have apart : (name, value) ∉ rest := fun member => absent (List.mem_map.mpr ⟨_, member, rfl⟩)
      simp [apart, eq_comm]
    · have apart : (name == key) = false := beq_eq_false_iff_ne.mpr same
      rw [List.lookup_cons, apart, List.mem_cons, Prod.mk.injEq]
      simpa [same] using ih distinct

theorem Bindings.nodup_empty : (Bindings.empty : Bindings Closure).names.Nodup := .nil

namespace Trait

/-- Two traits in a list have a method of the same name. They can be one trait that is listed twice. -/
def Clash (traits : List Trait) (name : String) : Prop :=
  ∃ t u, [t, u].Sublist traits ∧ name ∈ t.methods.names ∧ name ∈ u.methods.names

theorem clash_cons {rest : List Trait} :
    Clash (t :: rest) name ↔ (name ∈ t.methods.names ∧ ∃ u ∈ rest, name ∈ u.methods.names) ∨ Clash rest name := by
  constructor
  · rintro ⟨first, second, listed, inFirst, inSecond⟩
    cases listed with
    | cons _ listed => exact .inr ⟨first, second, listed, inFirst, inSecond⟩
    | cons_cons _ listed => exact .inl ⟨inFirst, second, List.singleton_sublist.mp listed, inSecond⟩
  · rintro (⟨inFirst, second, member, inSecond⟩ | ⟨first, second, listed, inFirst, inSecond⟩)
    · exact ⟨t, second, (List.singleton_sublist.mpr member).cons_cons t, inFirst, inSecond⟩
    · exact ⟨first, second, listed.cons t, inFirst, inSecond⟩

theorem nodup_iff_not_clash (tables : ∀ t ∈ traits, t.methods.names.Nodup) :
    (traits.flatMap (·.methods.names)).Nodup ↔ ¬ ∃ name, Clash traits name := by
  rw [List.nodup_flatMap, List.pairwise_iff_forall_sublist]
  constructor
  · rintro ⟨-, apart⟩ ⟨name, t, u, listed, inFirst, inSecond⟩
    exact apart listed inFirst inSecond
  · intro free
    refine ⟨tables, ?_⟩
    intro t u listed name inFirst inSecond
    exact free ⟨name, t, u, listed, inFirst, inSecond⟩

/-- A trait underlies another: it is that trait, or underlies one that was included when that trait was made. -/
inductive Underlies (u : Trait) : Trait → Prop where
  | same : Underlies u u
  | included {t v : Trait} {decl : TraitDecl} {m : Machine} {included : List Trait} {own : List Closure}
      (made : t.MadeBy decl m included own) (member : v ∈ included) (inner : Underlies u v) : Underlies u t

/-- A trait has all methods of the traits that underlie it. -/
theorem Underlies.entries_subset {u : Trait} (under : u.Underlies t) : u.methods.entries ⊆ t.methods.entries := by
  induction under with
  | same => exact List.Subset.refl _
  | included made member _ ih =>
    rw [made.table]
    intro entry isEntry
    exact List.mem_append_left _ (List.mem_flatMap.mpr ⟨_, member, ih isEntry⟩)

theorem Underlies.names_subset {u : Trait} (under : u.Underlies t) : u.methods.names ⊆ t.methods.names :=
  List.map_subset Prod.fst under.entries_subset

theorem clash_of_underlies {t' u : Trait} (listed : [t, t'].Sublist traits) (first : u.Underlies t)
    (second : u.Underlies t') (named : name ∈ u.methods.names) : Clash traits name :=
  ⟨t, t', listed, first.names_subset named, second.names_subset named⟩

/-- The function of a name in some traits that share no name is that of any trait that has the name. -/
theorem findSome?_eq_some_iff (distinct : (traits.flatMap (·.methods.names)).Nodup) {f : Closure} :
    traits.findSome? (·.methods.get? name) = some f ↔ ∃ t ∈ traits, t.methods.get? name = some f := by
  have joined : traits.findSome? (·.methods.get? name) =
      (Bindings.mk (traits.flatMap (·.methods.entries))).get? name := (lookup_flatMap ..).symm
  have names : (Bindings.mk (traits.flatMap (·.methods.entries))).names = traits.flatMap (·.methods.names) := by
    rw [Bindings.names, List.map_flatMap]
    rfl
  rw [joined, Bindings.get?_eq_some_iff (names ▸ distinct), List.mem_flatMap]
  refine exists_congr fun t => and_congr_right fun member => ?_
  exact (Bindings.get?_eq_some_iff ((List.nodup_flatMap.mp distinct).1 t member)).symm

theorem findSome?_perm {traits' : List Trait} (perm : traits'.Perm traits)
    (distinct : (traits.flatMap (·.methods.names)).Nodup) (name : String) :
    traits'.findSome? (·.methods.get? name) = traits.findSome? (·.methods.get? name) := by
  have distinct' := (perm.flatMap_right (·.methods.names)).nodup_iff.mpr distinct
  ext f
  simp only [findSome?_eq_some_iff distinct, findSome?_eq_some_iff distinct', perm.mem_iff]

end Trait

/-- Traits have each name once. -/
def uniqueNames : Rule := ⟨fun _ => True, fun t => t.methods.names.Nodup⟩

theorem uniqueNames_of_declared {ran : Visit → Prop} {m : Machine} (holds : (declaredBy ran).Holds m) :
    uniqueNames.Holds m := by
  have weaker : ∀ value, (declaredBy ran).Allows value → uniqueNames.Allows value := by
    intro value allowed
    cases value with
    | trait t =>
      obtain ⟨-, made, -⟩ : t.Declared ran := allowed
      exact made.distinct
    | object => exact fun _ _ => trivial
    | _ => trivial
  exact ⟨fun id => (holds.frames id).imp weaker, fun id => (holds.fields id).imp weaker,
    fun id value member => weaker value (holds.arrays id value member)⟩

/-! ### Taking up traits -/

namespace Eval

variable {α : Type} {m : Machine}

/-- A computation does not end well. -/
def Fails (x : Eval α) (m : Machine) : Prop := ∃ ending m', x m = .error ending m'

theorem fails_iff {x : Eval α} : Fails x m ↔ ¬ ∃ a m', x m = .ok a m' := by
  unfold Fails
  cases x m <;> simp

theorem ReadTraits.perm (reads : ReadTraits m refs traits) (perm : refs'.Perm refs) :
    ∃ traits', ReadTraits m refs' traits' ∧ traits'.Perm traits :=
  List.perm_comp_forall₂ perm reads

/-- Traits that are there cannot be taken up only because of a name that was taken up before or that two of them
have. -/
theorem includeTraits_error {methods : Bindings Closure} {ending : Ending} (reads : ReadTraits m refs traits)
    (distinct : methods.names.Nodup) (tables : ∀ t ∈ traits, t.methods.names.Nodup)
    (failed : includeTraits methods refs m = .error ending m') :
    ∃ name, ending = .crashed (.declaration (.duplicateInTraits name)) ∧
      ((name ∈ methods.names ∧ ∃ t ∈ traits, name ∈ t.methods.names) ∨ Trait.Clash traits name) := by
  induction reads generalizing methods with
  | nil => cases failed
  | @cons ref t refs traits read _ ih =>
    obtain ⟨table, tables⟩ := List.forall_mem_cons.mp tables
    rw [includeTraits, bind_of_ok read] at failed
    have spec := includeMethods_spec distinct t.methods.entries
    cases included : includeMethods methods t.methods.entries with
    | error =>
      rw [included] at failed
      obtain ⟨name, ⟨earlier, later, split, -, again⟩, rfl⟩ := (includeMethods_error_iff distinct).mp included
      have names : t.methods.names = earlier ++ name :: later := split
      -- The trait has the name once, so it is not one of the trait's own earlier names.
      have new : name ∉ earlier := by
        intro member
        rw [names] at table
        exact (List.nodup_append.mp table).2.2 name member name List.mem_cons_self rfl
      have known : name ∈ methods.names := (List.mem_append.mp again).resolve_right new
      refine ⟨name, ?_, .inl ⟨known, t, List.mem_cons_self, by simp [names]⟩⟩
      cases failed
      rfl
    | ok more =>
      rw [included] at failed spec
      have names : more.names = methods.names ++ t.methods.names := spec.1
      obtain ⟨name, isName, ⟨known, u, member, named⟩ | clash⟩ := ih spec.2 tables failed
      · refine ⟨name, isName, ?_⟩
        rw [names] at known
        rcases List.mem_append.mp known with known | first
        · exact .inl ⟨known, u, List.mem_cons_of_mem t member, named⟩
        · exact .inr (Trait.clash_cons.mpr (.inl ⟨first, u, member, named⟩))
      · exact ⟨name, isName, .inr (Trait.clash_cons.mpr (.inr clash))⟩

theorem includeTraits_of_nodup (reads : ReadTraits m refs traits)
    (distinct : (traits.flatMap (·.methods.names)).Nodup) : ∃ all, includeTraits .empty refs m = .ok all m ∧
      ∀ name, all.get? name = traits.findSome? (·.methods.get? name) := by
  rcases includeTraits_cases m Bindings.nodup_empty refs with
    ⟨all, traits', taken, reads', -, entries⟩ | ⟨_, -, -, cannot⟩
  · obtain rfl := reads.eq reads'
    refine ⟨all, taken, ?_⟩
    intro name
    rw [Bindings.get?, entries]
    exact lookup_flatMap ..
  · exact absurd distinct (cannot traits reads)

/-- Traits are taken up exactly if they are there and no two of them share a name. -/
theorem ok_includeTraits_iff : (∃ all m', includeTraits .empty refs m = .ok all m') ↔
      ∃ traits, ReadTraits m refs traits ∧ (traits.flatMap (·.methods.names)).Nodup := by
  constructor
  · rintro ⟨all, m', taken⟩
    rcases includeTraits_cases m Bindings.nodup_empty refs with
      ⟨all, traits, -, reads, distinct, entries⟩ | ⟨_, failed, -⟩
    · have names : all.names = traits.flatMap (·.methods.names) := by
        rw [Bindings.names, entries, List.map_append, List.map_flatMap]
        rfl
      exact ⟨traits, reads, names ▸ distinct⟩
    · cases taken.symm.trans failed
  · rintro ⟨traits, reads, distinct⟩
    obtain ⟨all, taken, -⟩ := includeTraits_of_nodup reads distinct
    exact ⟨all, m, taken⟩

theorem readable_perm (perm : refs'.Perm refs)
    (readable : ∃ traits, ReadTraits m refs traits ∧ (traits.flatMap (·.methods.names)).Nodup) :
    ∃ traits, ReadTraits m refs' traits ∧ (traits.flatMap (·.methods.names)).Nodup := by
  obtain ⟨traits, reads, distinct⟩ := readable
  obtain ⟨traits', reads', same⟩ := reads.perm perm
  exact ⟨traits', reads', (same.flatMap_right _).nodup_iff.mpr distinct⟩

theorem fails_includeTraits_perm (perm : refs'.Perm refs) :
    Fails (includeTraits .empty refs) m ↔ Fails (includeTraits .empty refs') m := by
  rw [fails_iff, fails_iff, ok_includeTraits_iff, ok_includeTraits_iff]
  exact not_congr ⟨readable_perm perm, readable_perm perm.symm⟩

theorem fails_includeTraits_iff (reads : ReadTraits m refs traits) (tables : ∀ t ∈ traits, t.methods.names.Nodup) :
    Fails (includeTraits .empty refs) m ↔ ∃ name, Trait.Clash traits name := by
  rw [fails_iff, ok_includeTraits_iff, ← not_iff_not, not_not, ← Trait.nodup_iff_not_clash tables]
  constructor
  · rintro ⟨traits', reads', distinct⟩
    exact reads.eq reads' ▸ distinct
  · exact fun distinct => ⟨traits, reads, distinct⟩

/-! ### Classes -/

theorem ok_assignNamed_iff {chain : Frames} {name : Token} {value : Value} :
    assignNamed chain name value m = .ok () m' ↔
      ∃ id, m.findFrame? chain name.lexeme = some id ∧ m.bind id name.lexeme value = m' := by
  have here : (get : Eval Machine) m = .ok m m := rfl
  rw [assignNamed, bind_of_ok here]
  cases m.findFrame? chain name.lexeme with
  | none =>
    constructor
    · intro assigned
      cases assigned
    · rintro ⟨id, ⟨⟩, -⟩
  | some id =>
    constructor
    · intro assigned
      cases assigned
      exact ⟨id, rfl, rfl⟩
    · rintro ⟨_, ⟨⟩, rfl⟩
      rfl

theorem makeClass_of_reads (decl : ClassDecl) (base : Option Class) (reads : ReadTraits m decl.traits traits)
    (distinct : (traits.flatMap (·.methods.names)).Nodup) : makeClass decl base m = .ok (m.classOf decl base traits)
      { m with
        fresh := m.fresh + decl.classMethods.length + decl.methods.length
        fields := (m.fields.push .empty).push .empty } := by
  rcases makeClass_cases m decl base with ⟨traits', reads', -, made⟩ | ⟨_, -, -, cannot⟩
  · rw [reads.eq reads', made]
  · exact absurd distinct (cannot traits reads)

end Eval

/-- Two classes agree in all but the order of the methods in their tables. -/
structure Class.SameLookup (c c' : Class) : Prop where
  id : c'.id = c.id
  name : c'.name = c.name
  superclass : c'.superclass = c.superclass
  metaclass : c'.metaclass = c.metaclass
  found : ∀ name, c'.findMethod? name = c.findMethod? name

theorem Machine.sameLookup_classOf (m : Machine) (decl : ClassDecl) (base : Option Class) {traits' : List Trait}
    (perm : traits'.Perm traits) (distinct : (traits.flatMap (·.methods.names)).Nodup) (refs : List NameRef) :
    (m.classOf decl base traits).SameLookup (m.classOf { decl with traits := refs } base traits') := by
  refine ⟨rfl, rfl, rfl, rfl, ?_⟩
  intro name
  rw [Class.findMethod?_eq, Class.findMethod?_eq, methods_classOf, methods_classOf, Trait.findSome?_perm perm distinct]
  rfl

/-- Listing the traits of a class in another order yields the same machine, but for the order of the methods in the
class. -/
theorem Eval.declareClass_perm {decl : ClassDecl} (perm : refs.Perm decl.traits) {m : Machine}
    (ends : declareClass decl m = .ok () m') :
    ∃ c c' rest id, c.SameLookup c' ∧ m'.lookup? m.scope decl.name.lexeme = some (.classObject c) ∧
      m' = Machine.bind rest id decl.name.lexeme (.classObject c) ∧
      declareClass { decl with traits := refs } m = .ok () (rest.bind id decl.name.lexeme (.classObject c')) := by
  let decl' : ClassDecl := { decl with traits := refs }
  rcases declareClass_cases m decl with
    ⟨_, -, failed⟩ | ⟨base, read, ⟨_, _, -, failed⟩ | ⟨c, rest, made, assigned⟩⟩
  · cases ends.symm.trans failed
  · cases ends.symm.trans failed
  · have named := lookup?_of_assignNamed (assigned.symm.trans ends)
    obtain ⟨id, found, bound⟩ := ok_assignNamed_iff.mp (assigned.symm.trans ends)
    rcases makeClass_cases (m.classSite decl base) decl base with ⟨traits, reads, distinct, made'⟩ | ⟨_, -, failed, -⟩
    · cases made.symm.trans made'
      obtain ⟨traits', reads', same⟩ := reads.perm perm
      have again := makeClass_of_reads decl' base reads' ((same.flatMap_right _).nodup_iff.mpr distinct)
      refine ⟨_, _, _, id, Machine.sameLookup_classOf _ decl base same distinct refs, named, bound.symm, ?_⟩
      have read' : readSuperclass decl'.superclass m = .ok base m := read
      rcases declareClass_of_read read' with ⟨_, _, failed, -⟩ | ⟨c', rest', made', assigned'⟩
      · cases again.symm.trans failed
      · cases again.symm.trans made'
        rw [assigned']
        exact ok_assignNamed_iff.mpr ⟨id, found, rfl⟩
    · cases made.symm.trans failed

theorem Eval.fails_declareClass_perm {decl : ClassDecl} (perm : refs.Perm decl.traits) (m : Machine) :
    Fails (declareClass decl) m ↔ Fails (declareClass { decl with traits := refs }) m := by
  rw [fails_iff, fails_iff]
  refine not_congr ⟨?_, ?_⟩
  · rintro ⟨_, m', ends⟩
    obtain ⟨_, _, _, _, -, -, -, ends'⟩ := declareClass_perm perm ends
    exact ⟨_, _, ends'⟩
  · rintro ⟨_, m', ends⟩
    have back : decl.traits.Perm ({ decl with traits := refs } : ClassDecl).traits := perm.symm
    obtain ⟨_, _, _, _, -, -, -, ends'⟩ := declareClass_perm back ends
    exact ⟨_, _, ends'⟩

/-! ### The order of traits -/

open Eval in
/-- The order of traits does not matter. In programs that are run one after another, every trait has each name once.
Where that is so, traits that names refer to can be taken up in any order or in none; they cannot be exactly if a name
is contributed by two of them, as it is if one trait with a method underlies both; and what is taken up leads from each
name to the same function, that of the trait that has it. So a class whose traits are listed in another order is
declared or fails likewise, and its declaration leaves the same machine, but for a class with the same methods. -/
theorem trait_order_irrelevant :
    (∀ (programs : List (Nat × List Stmt)) (clock dice : Readings),
      (∀ v, RanIn (.start clock dice) programs v → uniqueNames.Holds v.machine) ∧
        uniqueNames.Holds ((Machine.start clock dice).interpretAll programs)) ∧
    (∀ (m : Machine) (refs refs' : List NameRef) (traits : List Trait), uniqueNames.Holds m → refs'.Perm refs →
      ReadTraits m refs traits →
      (Fails (includeTraits .empty refs) m ↔ Fails (includeTraits .empty refs') m) ∧
      (Fails (includeTraits .empty refs) m ↔ ∃ name, Trait.Clash traits name) ∧
      (∀ t t' u name, [t, t'].Sublist traits → Trait.Underlies u t → Trait.Underlies u t' →
        name ∈ u.methods.names → Trait.Clash traits name) ∧
      (∀ ending m', includeTraits .empty refs m = .error ending m' →
        m' = m ∧ ∃ name, Trait.Clash traits name ∧ ending = .crashed (.declaration (.duplicateInTraits name))) ∧
      ∀ all m', includeTraits .empty refs m = .ok all m' →
        m' = m ∧ ∃ all', includeTraits .empty refs' m = .ok all' m ∧ ∀ name, all'.get? name = all.get? name ∧
          ∀ f, all.get? name = some f ↔ ∃ t ∈ traits, t.methods.get? name = some f) ∧
    ∀ (n : Nat) (decl : ClassDecl) (refs : List NameRef) (m : Machine), refs.Perm decl.traits →
      (Fails (execute n (.classDef decl)) m ↔ Fails (execute n (.classDef { decl with traits := refs })) m) ∧
      ∀ m', execute n (.classDef decl) m = .ok () m' →
        ∃ c c' rest id, Class.SameLookup c c' ∧ m'.lookup? m.scope decl.name.lexeme = some (.classObject c) ∧
          m' = Machine.bind rest id decl.name.lexeme (.classObject c) ∧
          execute n (.classDef { decl with traits := refs }) m =
            .ok () (rest.bind id decl.name.lexeme (.classObject c')) := by
  refine ⟨?_, ?_, ?_⟩
  · intro programs clock dice
    refine ⟨?_, uniqueNames_of_declared (holds_interpretAll (List.append_nil programs).symm clock dice)⟩
    intro v node
    exact uniqueNames_of_declared (holds_of_ranIn node)
  · intro m refs refs' traits holds perm reads
    have tables : ∀ t ∈ traits, t.methods.names.Nodup :=
      ((Rule.holds_law uniqueNames).mpr holds).ofTraits reads
    have distinct := Trait.nodup_iff_not_clash tables
    have fails := fails_includeTraits_iff reads tables
    refine ⟨fails_includeTraits_perm perm, fails, ?_, ?_, ?_⟩
    · intro t t' u name listed first second named
      exact Trait.clash_of_underlies listed first second named
    · intro ending m' failed
      obtain ⟨name, isName, ⟨known, -⟩ | clash⟩ := includeTraits_error reads Bindings.nodup_empty tables failed
      · cases known
      · refine ⟨?_, name, clash, isName⟩
        rcases looks_includeTraits .empty refs m with ⟨_, same⟩ | ⟨_, same, -⟩ <;> cases failed.symm.trans same
        rfl
    · intro all m' taken
      have free : ¬ Fails (includeTraits .empty refs) m := fun failed => fails_iff.mp failed ⟨all, m', taken⟩
      have distinct := distinct.mpr (mt fails.mpr free)
      obtain ⟨traits', reads', same⟩ := reads.perm perm
      obtain ⟨all₀, taken₀, found⟩ := includeTraits_of_nodup reads distinct
      obtain ⟨all', taken', found'⟩ := includeTraits_of_nodup reads' ((same.flatMap_right _).nodup_iff.mpr distinct)
      cases taken.symm.trans taken₀
      refine ⟨rfl, all', taken', ?_⟩
      intro name
      refine ⟨?_, fun f => ?_⟩
      · rw [found, found', Trait.findSome?_perm same distinct]
      · rw [found, Trait.findSome?_eq_some_iff distinct]
  · intro n decl refs m perm
    cases n with
    | zero =>
      refine ⟨iff_of_true ⟨_, _, rfl⟩ ⟨_, _, rfl⟩, ?_⟩
      intro m' ends
      cases ends
    | succ => exact ⟨fails_declareClass_perm perm m, fun m' ends => declareClass_perm perm ends⟩

/-! Two traits, a third one that includes the first, and a class that includes the first two. -/

def traitRef (name : String) : NameRef := ⟨.named name, none⟩

def thirdDecl : TraitDecl := ⟨.named "C", [traitRef "A"], [emptyMethod "c"]⟩

def orderedTraits : List Stmt :=
  [.traitDef ⟨.named "A", [], [emptyMethod "a"]⟩,
    .traitDef ⟨.named "B", [], [emptyMethod "b"]⟩, .traitDef thirdDecl]

def thirdMachine : Machine := (Eval.runAll (Eval.execute 1) (orderedTraits.take 2)).after (.start {} {})

def orderedMachine : Machine := (Machine.start {} {}).interpretAll [(1, orderedTraits)]

def firstTrait : Trait := ⟨1, .named "A", ⟨[("a", ⟨0, emptyMethod "a", [0], false⟩)]⟩⟩

def secondTrait : Trait := ⟨3, .named "B", ⟨[("b", ⟨2, emptyMethod "b", [0], false⟩)]⟩⟩

def thirdTrait : Trait := (thirdMachine.defining "C" .nil).traitOf thirdDecl [firstTrait]

theorem readTraits_ordered : Eval.ReadTraits orderedMachine [traitRef "A", traitRef "B", traitRef "C"]
    [firstTrait, secondTrait, thirdTrait] :=
  .cons (by cbv) (.cons (by cbv) (.cons (by cbv) .nil))

theorem underlies_thirdTrait : firstTrait.Underlies thirdTrait := by
  have reads : Eval.ReadTraits (thirdMachine.defining thirdDecl.name.lexeme .nil) thirdDecl.traits [firstTrait] :=
    .cons rfl .nil
  exact .included (Machine.madeBy_traitOf reads (by decide +kernel)) List.mem_cons_self .same

def orderedClass : ClassDecl := ⟨.named "D", none, [], [], [traitRef "A", traitRef "B"]⟩

def orderedAfter : Machine := (Eval.execute 1 (.classDef orderedClass)).after orderedMachine

theorem execute_orderedClass : Eval.execute 1 (.classDef orderedClass) orderedMachine = .ok () orderedAfter :=
  Eval.ok_of_run' (by decide +kernel)

open Eval in
/-- All three traits cannot be taken up in whichever order, since there are two ways to the first one; a class with the
first two has the same methods if they are listed the other way round. -/
theorem trait_order_irrelevant_ordered :
    uniqueNames.Holds orderedMachine ∧
      ReadTraits orderedMachine [traitRef "A", traitRef "B", traitRef "C"] [firstTrait, secondTrait, thirdTrait] ∧
      firstTrait.Underlies thirdTrait ∧
      Fails (includeTraits .empty [traitRef "A", traitRef "B", traitRef "C"]) orderedMachine ∧
      Fails (includeTraits .empty [traitRef "C", traitRef "B", traitRef "A"]) orderedMachine ∧
      execute 1 (.classDef orderedClass) orderedMachine = .ok () orderedAfter ∧
      ∃ c c' rest id, Class.SameLookup c c' ∧ orderedAfter = Machine.bind rest id "D" (.classObject c) ∧
        execute 1 (.classDef { orderedClass with traits := [traitRef "B", traitRef "A"] }) orderedMachine =
          .ok () (rest.bind id "D" (.classObject c')) := by
  have holds := (trait_order_irrelevant.1 [(1, orderedTraits)] {} {}).2
  have turned : [traitRef "C", traitRef "B", traitRef "A"].Perm [traitRef "A", traitRef "B", traitRef "C"] :=
    List.reverse_perm [traitRef "A", traitRef "B", traitRef "C"]
  obtain ⟨likewise, fails, ways, -⟩ := trait_order_irrelevant.2.1 _ _ _ _ holds turned readTraits_ordered
  have ends : [firstTrait, thirdTrait].Sublist [firstTrait, secondTrait, thirdTrait] :=
    .cons_cons _ (.cons _ (.refl _))
  have clash := ways _ _ _ "a" ends .same underlies_thirdTrait List.mem_cons_self
  have failed := fails.mpr ⟨"a", clash⟩
  obtain ⟨-, declared⟩ := trait_order_irrelevant.2.2 1 orderedClass [traitRef "B", traitRef "A"] orderedMachine
    (List.Perm.swap ..)
  obtain ⟨c, c', rest, id, same, -, bound, bound'⟩ := declared _ execute_orderedClass
  exact ⟨holds, readTraits_ordered, underlies_thirdTrait, failed, likewise.mp failed, execute_orderedClass, c, c', rest,
    id, same, bound, bound'⟩

end LoxLang
