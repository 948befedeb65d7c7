import LoxLang.Proofs.HeldRuns

/-!
Where the classes and traits of a run come from. Each was made by a declaration that was run: from the functions of its
own methods, the traits that it includes and the class that it extends, which were made by declarations in turn. This is
a rule that declarations keep, so that it holds of every class and every trait that a run ever holds.
-/

namespace LoxLang

open Eval

variable {decl : ClassDecl} {base : Option Class}

/-- A trait is made by a declaration from the traits it includes and functions of its own, and has no method twice. -/
structure Trait.MadeBy (t : Trait) (decl : TraitDecl) (m : Machine) (included : List Trait) (own : List Closure) :
    Prop where
  reads : ReadTraits (m.defining decl.name.lexeme .nil) decl.traits included
  ownMade : MadeFrom (fun _ => false) m.scope decl.methods own
  table : t.methods.entries = included.flatMap (·.methods.entries) ++ own.map Closure.entry
  distinct : t.methods.names.Nodup

/-- A class is made by a declaration from the class it extends, the traits it includes, the functions of its instances
and the functions of its own. -/
structure Class.MadeBy (c : Class) (decl : ClassDecl) (m : Machine) (base : Option Class) (included : List Trait)
    (functions own : List Closure) : Prop where
  extended : readSuperclass decl.superclass m = .ok base m
  reads : ReadTraits (m.classSite decl base) decl.traits included
  distinct : (included.flatMap (·.methods.names)).Nodup
  made : MadeFrom (fun method => method.name.lexeme = initName) (m.classSite decl base).scope decl.methods functions
  ownMade : MadeFrom (fun _ => false) (m.classSite decl base).scope decl.classMethods own
  superclass : c.superclass = base
  methods : ∀ name, c.methods.get? name =
    ((lastNamed? functions name).or (included.findSome? (·.methods.get? name))).map .closure
  metaclass : ∃ k, c.metaclass = some k ∧ k.superclass = base ∧
    ∀ name, k.methods.get? name = (lastNamed? own name).map .closure

/-- A trait whose declaration was run, and which includes such traits only. -/
inductive Trait.Declared (ran : Visit → Prop) : Trait → Prop where
  | made {t : Trait} {n : Nat} {decl : TraitDecl} {m : Machine} {included : List Trait} {own : List Closure}
      (node : ran ⟨n + 1, .exec (.traitDef decl), m⟩) (made : t.MadeBy decl m included own)
      (inner : ∀ u ∈ included, Trait.Declared ran u) : Trait.Declared ran t

/-- A class whose declaration was run, and which includes such traits and extends such a class only. -/
inductive Class.Declared (ran : Visit → Prop) : Class → Prop where
  | made {c : Class} {n : Nat} {decl : ClassDecl} {m : Machine} {base : Option Class} {included : List Trait}
      {functions own : List Closure} (node : ran ⟨n + 1, .exec (.classDef decl), m⟩)
      (made : c.MadeBy decl m base included functions own) (traits : ∀ t ∈ included, t.Declared ran)
      (bases : ∀ b, base = some b → Class.Declared ran b) : Class.Declared ran c

/-- All classes and traits come from declarations that were run. -/
def declaredBy (ran : Visit → Prop) : Rule := ⟨Class.Declared ran, Trait.Declared ran⟩

/-! ### What is made -/

namespace Class

theorem findMethod?_eq (c : Class) (name : String) :
    c.findMethod? name = (c.methods.get? name).or (c.superclass.bind (·.findMethod? name)) := by
  obtain ⟨id, label, superclass, metaclass, methods⟩ := c
  cases superclass with
  | none =>
    rw [findMethod?]
    exact Option.or_none.symm
  | some => rfl

end Class

namespace Machine

variable {m : Machine}

theorem madeBy_traitOf {decl : TraitDecl} {included : List Trait}
    (reads : ReadTraits (m.defining decl.name.lexeme .nil) decl.traits included)
    (distinct : ((m.defining decl.name.lexeme .nil).traitOf decl included).methods.names.Nodup) :
    ((m.defining decl.name.lexeme .nil).traitOf decl included).MadeBy decl m included
      ((m.defining decl.name.lexeme .nil).traitFunctions decl) := by
  refine ⟨reads, ?_, rfl, distinct⟩
  rw [← m.scope_defining decl.name.lexeme .nil]
  exact madeFrom_closuresFrom _ _ _ _

theorem methods_classOf (decl : ClassDecl) (base : Option Class) (included : List Trait) (name : String) :
    (m.classOf decl base included).methods.get? name =
      ((lastNamed? (m.instanceFunctions decl) name).or (included.findSome? (·.methods.get? name))).map .closure := by
  have taken : (Bindings.mk ((included.flatMap (·.methods.entries)).map fun entry =>
      (entry.1, Method.closure entry.2))).get? name = (included.findSome? (·.methods.get? name)).map .closure := by
    rw [Bindings.get?, lookup_map, lookup_flatMap]
    rfl
  rw [classOf, Bindings.get?_putAll, lookup_reverse_entries, taken, Option.map_or]

theorem madeBy_classOf {included : List Trait} (extended : readSuperclass decl.superclass m = .ok base m)
    (reads : ReadTraits (m.classSite decl base) decl.traits included)
    (distinct : (included.flatMap (·.methods.names)).Nodup) :
    ((m.classSite decl base).classOf decl base included).MadeBy decl m base included
      ((m.classSite decl base).instanceFunctions decl) ((m.classSite decl base).classFunctions decl) := by
  refine ⟨extended, reads, distinct, madeFrom_closuresFrom _ _ _ _, madeFrom_closuresFrom _ _ _ _, rfl,
    methods_classOf decl base included, _, rfl, rfl, ?_⟩
  intro name
  rw [Bindings.get?_putAll, lookup_reverse_entries]
  exact Option.or_none

end Machine

/-! ### Declarations keep the law -/

namespace Law

variable {law : Law} {m : Machine}

theorem Holds.defining (holds : law.Holds m) (name : String) {value : Value} (new : law.Allows value) :
    law.Holds (m.defining name value) := by
  unfold Machine.defining
  split
  · exact holds
  · exact holds.bind _ name new

theorem Holds.classSite (holds : law.Holds m) (decl : ClassDecl) (bases : ∀ b, base = some b → law.ofClass b) :
    law.Holds (m.classSite decl base) := by
  have named := holds.defining decl.name.lexeme (show law.Allows .nil from trivial)
  cases base with
  | none => exact named
  | some b =>
    have allowed : law.Allows (.classObject b) := bases b rfl
    exact (named.push (Bindings.all_empty.put superName allowed)).scoped _

theorem Holds.allows_readName (holds : law.Holds m) {name : Token} {depth : Option Nat} {value : Value} {m' : Machine}
    (read : readName name depth m = .ok value m') : law.Allows value := by
  have kept := (sound_readName holds name depth).kept
  rw [read] at kept
  exact kept.1

theorem Holds.ofTrait (holds : law.Holds m) {ref : NameRef} {t : Trait} (read : readTrait ref m = .ok t m) :
    law.ofTrait t := by
  rcases looks_readName ref.name ref.depth m with ⟨value, named⟩ | ⟨ending, named, -⟩
  · rw [readTrait, bind_of_ok named] at read
    cases value with
    | trait =>
      cases read
      exact holds.allows_readName named
    | _ => cases read
  · rw [readTrait, bind_of_error named] at read
    cases read

theorem Holds.ofTraits (holds : law.Holds m) {refs : List NameRef} {traits : List Trait}
    (reads : ReadTraits m refs traits) : ∀ t ∈ traits, law.ofTrait t := by
  induction reads with
  | nil => simp
  | cons read _ ih => exact List.forall_mem_cons.mpr ⟨holds.ofTrait read, ih⟩

theorem Holds.ofBase (holds : law.Holds m) {superclass : Option NameRef}
    (read : readSuperclass superclass m = .ok base m) : ∀ b, base = some b → law.ofClass b := by
  cases superclass with
  | none =>
    cases read
    rintro b ⟨⟩
  | some ref =>
    rw [readSuperclass] at read
    rcases looks_readName ref.name ref.depth m with ⟨value, named⟩ | ⟨ending, named, -⟩
    · rw [bind_of_ok named] at read
      cases value with
      | classObject =>
        cases read
        rintro b ⟨⟩
        exact holds.allows_readName named
      | _ => cases read
    · rw [bind_of_error named] at read
      cases read

variable (law) in
/-- The law allows the classes and the traits that come from declarations that were run, and no others. -/
structure OfDeclared (ran : Visit → Prop) : Prop where
  classes : ∀ c, law.ofClass c ↔ c.Declared ran
  traits : ∀ t, law.ofTrait t ↔ t.Declared ran

section
variable {ran : Visit → Prop} {n : Nat} (ofDeclared : law.OfDeclared ran)
include ofDeclared

theorem declared_of_makeClass {c : Class} {m' : Machine} (node : ran ⟨n + 1, .exec (.classDef decl), m⟩)
    (holds : law.Holds m) (extended : readSuperclass decl.superclass m = .ok base m)
    (made : makeClass decl base (m.classSite decl base) = .ok c m') :
    (∃ included functions own, c.MadeBy decl m base included functions own ∧ ∀ t ∈ included, t.Declared ran) ∧
      c.Declared ran ∧ law.Holds m' := by
  have bases := holds.ofBase extended
  have site := holds.classSite decl bases
  rcases makeClass_cases (m.classSite decl base) decl base with
    ⟨included, reads, distinct, ends⟩ | ⟨ending, -, ends, -⟩
  · cases made.symm.trans ends
    have made := Machine.madeBy_classOf extended reads distinct
    have traits : ∀ t ∈ included, t.Declared ran := by
      intro t member
      exact (ofDeclared.traits t).mp (site.ofTraits reads t member)
    have declared : ∀ b, base = some b → b.Declared ran := by
      intro b isBase
      exact (ofDeclared.classes b).mp (bases b isBase)
    refine ⟨⟨included, _, _, made, traits⟩, .made node made traits declared, ?_⟩
    exact ((site.newObject).newObject).aside rfl rfl rfl
  · cases made.symm.trans ends

theorem sound_declareClass (node : ran ⟨n + 1, .exec (.classDef decl), m⟩) (holds : law.Holds m) :
    law.Sound m (declareClass decl) fun _ => True := by
  rcases declareClass_cases m decl with
    ⟨ending, isError, ends⟩ | ⟨base, extended, ⟨ending, m', failed, ends⟩ | ⟨c, m', made, ends⟩⟩
  · exact sound_of_error ends (allowsEnding_of_isError isError) holds
  · have site := holds.classSite decl (holds.ofBase extended)
    rcases makeClass_cases (m.classSite decl base) decl base with
      ⟨included, -, -, ok⟩ | ⟨ending', isError, error, -⟩
    · cases failed.symm.trans ok
    · cases failed.symm.trans error
      exact sound_of_error ends (allowsEnding_of_isError isError) (site.newObject.aside rfl rfl rfl)
  · obtain ⟨-, declared, holds⟩ := declared_of_makeClass ofDeclared node holds extended made
    have allowed : law.Allows (.classObject c) := (ofDeclared.classes c).mpr declared
    have assigned := sound_assignNamed (holds.scoped m.scope) m.scope decl.name allowed
    refine ⟨rfl, ?_⟩
    rw [ends]
    exact assigned.kept

theorem sound_declareTrait {decl : TraitDecl} (node : ran ⟨n + 1, .exec (.traitDef decl), m⟩) (holds : law.Holds m) :
    law.Sound m (declareTrait decl) fun _ => True := by
  have site := holds.defining decl.name.lexeme (show law.Allows .nil from trivial)
  rcases declareTrait_cases m decl with ⟨ending, fresh, isError, ends⟩ | ⟨included, reads, distinct, ends⟩
  · exact sound_of_error ends (allowsEnding_of_isError isError) (site.aside rfl rfl rfl)
  · have traits : ∀ t ∈ included, t.Declared ran := by
      intro t member
      exact (ofDeclared.traits t).mp (site.ofTraits reads t member)
    have allowed : law.Allows (.trait ((m.defining decl.name.lexeme .nil).traitOf decl included)) :=
      (ofDeclared.traits _).mpr (.made node (Machine.madeBy_traitOf reads distinct) traits)
    have assigned := sound_assignNamed (m := { m.defining decl.name.lexeme .nil with
      fresh := (m.defining decl.name.lexeme .nil).fresh + decl.methods.length + 1 }) (site.aside rfl rfl rfl) m.scope
      decl.name allowed
    refine ⟨rfl, ?_⟩
    rw [ends]
    exact assigned.kept

theorem OfDeclared.declares {program : List Stmt} {fuel : Nat} (covered : ∀ v, Reached program fuel m v → ran v) :
    law.Declares program fuel m where
  classes _ _ _ reached holds := sound_declareClass ofDeclared (covered _ reached) holds
  traits _ _ _ reached holds := sound_declareTrait ofDeclared (covered _ reached) holds

end

/-! ### Runs -/

theorem holds_start (builtins : ∀ entry ∈ builtinNames, law.ofBuiltin entry.2) (clock dice : Readings) :
    law.Holds (Machine.start clock dice) := by
  refine ⟨?_, fun _ => Bindings.all_empty, fun _ value member => absurd member List.not_mem_nil⟩
  have globals : (Bindings.empty.putAll (builtinNames.map fun entry => (entry.1, .builtin entry.2))).All
      law.Allows := by
    refine Bindings.all_empty.putAll ?_
    intro entry member
    obtain ⟨named, isNamed, rfl⟩ := List.mem_map.mp member
    exact builtins named isNamed
  intro id
  cases id with
  | zero => exact globals
  | succ => exact Bindings.all_empty

end Law

/-- The machine after programs that are run one after another, each with a number of layers. -/
def Machine.interpretAll (m : Machine) (programs : List (Nat × List Stmt)) : Machine :=
  programs.foldl (fun m program => (m.interpret program.1 program.2).1) m

/-- The nodes that are run when programs are run one after another, each from the machine that those before it left,
however they ended. -/
def RanIn (start : Machine) (programs : List (Nat × List Stmt)) (v : Visit) : Prop :=
  ∃ before program rest, programs = before ++ program :: rest ∧
    Reached program.2 program.1 (start.interpretAll before) v

section
variable {ran : Visit → Prop} {m : Machine} {fuel : Nat} {program : List Stmt}

theorem ofDeclared_declaredBy (ran : Visit → Prop) : (declaredBy ran).law.OfDeclared ran :=
  ⟨fun _ => .rfl, fun _ => .rfl⟩

theorem holds_interpret (covered : ∀ v, Reached program fuel m v → ran v) (holds : (declaredBy ran).Holds m) :
    (declaredBy ran).Holds (m.interpret fuel program).1 := by
  rw [← Rule.holds_law] at holds ⊢
  have declares := (ofDeclared_declaredBy ran).declares covered
  have kept := Law.kept_statements declares [] (List.append_nil program).symm rfl holds
  simp only [Machine.interpret, Machine.perform, EStateM.run]
  cases ends : runAll (execute fuel) program m with
  | ok =>
    rw [ends] at kept
    exact kept.2
  | error ending =>
    rw [ends] at kept
    cases ending with
    | failed => exact kept.2.aside rfl rfl rfl
    | _ => exact kept.2

theorem holds_interpretAll {programs before rest : List (Nat × List Stmt)} (split : programs = before ++ rest)
    (clock dice : Readings) : (declaredBy (RanIn (.start clock dice) programs)).Holds
      ((Machine.start clock dice).interpretAll before) := by
  induction before using List.reverseRecOn generalizing rest with
  | nil => exact (Rule.holds_law _).mp (Law.holds_start (fun _ _ => trivial) clock dice)
  | append_singleton before program ih =>
    rw [Machine.interpretAll, List.foldl_append]
    have here : programs = before ++ program :: rest := by rw [split, List.append_assoc, List.singleton_append]
    refine holds_interpret ?_ (ih here)
    intro v reached
    exact ⟨before, program, rest, here, reached⟩

/-- Every class and every trait of every machine at which a node is run comes from a declaration that was run. -/
theorem holds_of_ranIn {clock dice : Readings} {programs : List (Nat × List Stmt)} {v : Visit}
    (node : RanIn (.start clock dice) programs v) :
    (declaredBy (RanIn (.start clock dice) programs)).Holds v.machine := by
  obtain ⟨before, program, rest, split, reached⟩ := node
  have covered : ∀ w, Reached program.2 program.1 ((Machine.start clock dice).interpretAll before) w →
      RanIn (.start clock dice) programs w := by
    intro w reached
    exact ⟨before, program, rest, split, reached⟩
  have first := (Rule.holds_law _).mpr (holds_interpretAll split clock dice)
  exact (Rule.holds_law _).mp (Law.holds_reached ((ofDeclared_declaredBy _).declares covered) first reached)

end

end LoxLang
