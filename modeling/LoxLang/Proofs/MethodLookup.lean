import LoxLang.Proofs.DeclaredClasses

/-!
Which method is found under a name. For an instance it is the last method of that name in the body of its class, else
the one that the traits of the class contribute, else what is found in the class that it extends. For a class itself
it is the last of the methods that the class declares for itself, else what is found for the *instances* of the class
that it extends: methods that a class has for itself are not inherited, and methods of instances take their place.
-/

namespace LoxLang

open Eval

variable {base : Option Class} {ran : Visit → Prop} {m : Machine} {decl : ClassDecl}

/-! ### Methods that are found -/

/-- What is found is a function, if it is one of some functions or found in a class that has functions only. -/
theorem Method.exists_closure {method : Method} {name : String} {own : Option Closure}
    (found : (own.map .closure).or (base.bind (·.findMethod? name)) = some method)
    (bases : ∀ b, base = some b → b.findMethod? name = some method → ∃ f, method = .closure f) :
    ∃ f, method = .closure f := by
  rcases Option.or_eq_some_iff.mp found with found | ⟨-, found⟩
  · obtain ⟨f, -, same⟩ := Option.map_eq_some_iff.mp found
    exact ⟨f, same.symm⟩
  · obtain ⟨b, isBase, found⟩ := Option.bind_eq_some_iff.mp found
    exact bases b isBase found

theorem Class.Declared.isFunction {c : Class} (declared : c.Declared ran) {name : String} {method : Method}
    (found : c.findMethod? name = some method) : ∃ f, method = .closure f := by
  induction declared with
  | made _ made _ _ ih =>
    rw [findMethod?_eq, made.methods, made.superclass] at found
    exact Method.exists_closure found ih

/-- A function is bound to a value: it has the code and the frames of the first one, and around its body a new frame in
which it finds the value. -/
structure Closure.BoundTo (f : Closure) (receiver : Value) (m : Machine) (bound : Closure) (m' : Machine) : Prop where
  decl : bound.decl = f.decl
  kind : bound.isInitializer = f.isInitializer
  frames : bound.frames = m.frames.size :: f.frames
  receiver : m'.frames = m.frames.push (Bindings.empty.put thisName receiver)

/-- Reading a property yields a method, bound to the value it is read from, if there is one, and fails else. -/
def Eval.ReadsMethod (self : Value) (name : Token) (m : Machine) (found : Option Method) : Prop :=
  (∃ f bound m', found = some (.closure f) ∧ readProperty self name m = .ok (.function bound) m' ∧
    f.BoundTo self m bound m') ∨
  (found = none ∧ readProperty self name m = .error (.error name (.undefinedProperty name.lexeme)) m)

theorem Closure.boundTo_bindThis (f : Closure) (receiver : Value) (m : Machine) :
    ∃ bound m', bindThis f receiver m = .ok bound m' ∧ f.BoundTo receiver m bound m' :=
  ⟨_, _, rfl, rfl, rfl, rfl, rfl⟩

/-- What a property without a field is read from: the class that the value was made by. -/
theorem Eval.readsMethod_of_readMember {self : Value} {id : Nat} (madeBy : Option Class) {name : Token}
    (reads : readProperty self name = readMember self id madeBy name)
    (noField : (m.fieldsOf id).get? name.lexeme = none)
    (functions : ∀ method, madeBy.bind (·.findMethod? name.lexeme) = some method → ∃ f, method = .closure f) :
    ReadsMethod self name m (madeBy.bind (·.findMethod? name.lexeme)) := by
  have here : (get : Eval Machine) m = .ok m m := rfl
  cases found : madeBy.bind (·.findMethod? name.lexeme) with
  | none =>
    refine .inr ⟨rfl, ?_⟩
    rw [reads, readMember, bind_of_ok here]
    simp only [noField, found]
    rfl
  | some method =>
    obtain ⟨f, rfl⟩ := functions method found
    obtain ⟨bound, m', bindsThis, boundTo⟩ := f.boundTo_bindThis self m
    refine .inl ⟨f, bound, m', rfl, ?_, boundTo⟩
    rw [reads, readMember, bind_of_ok here]
    simp only [noField, found]
    exact bind_of_ok bindsThis

/-! ### Names of classes and traits -/

theorem Eval.lookup?_of_assignNamed {chain : Frames} {name : Token} {value : Value} {m' : Machine}
    (assigned : assignNamed chain name value m = .ok () m') : m'.lookup? chain name.lexeme = some value := by
  have here : (get : Eval Machine) m = .ok m m := rfl
  rw [assignNamed, bind_of_ok here] at assigned
  cases found : m.findFrame? chain name.lexeme with
  | none =>
    rw [found] at assigned
    cases assigned
  | some id =>
    rw [found] at assigned
    obtain rfl : m' = m.bind id name.lexeme value := by
      cases assigned
      rfl
    have bound : (m.frame id).contains name.lexeme = true :=
      List.find?_some (p := fun id => (m.frame id).contains name.lexeme) found
    have inside := Machine.lt_size_of_contains bound
    -- The name is bound in the same frames as before.
    have same : ∀ other, ((m.bind id name.lexeme value).frame other).contains name.lexeme =
        (m.frame other).contains name.lexeme := by
      intro other
      by_cases isId : other = id
      · rw [isId, Machine.frame_bind_self inside, bound]
        exact Bindings.contains_put.mpr (.inl rfl)
      · rw [Machine.frame_bind_of_ne isId]
    have again : (m.bind id name.lexeme value).findFrame? chain name.lexeme = some id := by
      rw [Machine.findFrame?, funext same]
      exact found
    rw [Machine.lookup?, again, Option.bind_some, Machine.frame_bind_self inside, Bindings.get?_put_self]

section
variable {ran : Visit → Prop} {m m' : Machine} {n : Nat}

theorem exists_class_of_execute (node : ran ⟨n, .exec (.classDef decl), m⟩) (holds : (declaredBy ran).Holds m)
    (ends : execute n (.classDef decl) m = .ok () m') :
    ∃ c base included functions own, m'.lookup? m.scope decl.name.lexeme = some (.classObject c) ∧ c.Declared ran ∧
      c.MadeBy decl m base included functions own ∧ (∀ t ∈ included, t.Declared ran) ∧
      ∀ b, base = some b → b.Declared ran := by
  cases n with
  | zero => cases ends
  | succ =>
    rcases declareClass_cases m decl with
      ⟨ending, -, failed⟩ | ⟨base, extended, ⟨ending, m₁, -, failed⟩ | ⟨c, m₁, made, assigned⟩⟩
    · cases ends.symm.trans failed
    · cases ends.symm.trans failed
    · rw [← Rule.holds_law] at holds
      obtain ⟨⟨included, functions, own, madeBy, traits⟩, declared, -⟩ :=
        Law.declared_of_makeClass (ofDeclared_declaredBy ran) node holds extended made
      have named := lookup?_of_assignNamed (assigned.symm.trans ends)
      exact ⟨c, base, included, functions, own, named, declared, madeBy, traits, holds.ofBase extended⟩

theorem exists_trait_of_execute {decl : TraitDecl} (holds : (declaredBy ran).Holds m)
    (ends : execute n (.traitDef decl) m = .ok () m') :
    ∃ t included own, m'.lookup? m.scope decl.name.lexeme = some (.trait t) ∧ t.MadeBy decl m included own ∧
      ∀ u ∈ included, u.Declared ran := by
  cases n with
  | zero => cases ends
  | succ =>
    rw [← Rule.holds_law] at holds
    have site := holds.defining decl.name.lexeme (show (declaredBy ran).law.Allows .nil from trivial)
    rcases declareTrait_cases m decl with ⟨ending, fresh, -, failed⟩ | ⟨included, reads, distinct, assigned⟩
    · cases ends.symm.trans failed
    · have named := lookup?_of_assignNamed (assigned.symm.trans ends)
      exact ⟨_, included, _, named, Machine.madeBy_traitOf reads distinct, site.ofTraits reads⟩

end

/-! ### Methods of instances -/

/-- What is found in a class follows its declaration: the last function of a name that was made for its instances, else
the one that its traits contribute, else what is found in the class that it extends. -/
def Class.Follows (ran : Visit → Prop) (decl : ClassDecl) (m : Machine) (c : Class) : Prop :=
  ∃ base included functions own, c.MadeBy decl m base included functions own ∧
    (∀ t ∈ included, t.Declared ran) ∧ (∀ b, base = some b → b.Declared ran) ∧
    ∀ name, c.findMethod? name =
      (((lastNamed? functions name).or (included.findSome? (·.methods.get? name))).map .closure).or
        (base.bind (·.findMethod? name))

theorem Class.MadeBy.follows {c : Class} {included : List Trait} {functions own : List Closure}
    (made : c.MadeBy decl m base included functions own) (traits : ∀ t ∈ included, t.Declared ran)
    (bases : ∀ b, base = some b → b.Declared ran) : c.Follows ran decl m := by
  refine ⟨base, included, functions, own, made, traits, bases, ?_⟩
  intro name
  rw [findMethod?_eq, made.methods, made.superclass]

/-- Lookup of methods follows the declarations. In programs that are run one after another, all classes and all traits
come from declarations. A declaration that ends well binds its name to a trait or a class that follows it. Reading a
name from an instance of a class yields what is found in the class, bound to the instance, unless the instance has a
field of that name. -/
theorem methods_follow_declarations (programs : List (Nat × List Stmt)) (clock dice : Readings) :
    let ran := RanIn (.start clock dice) programs
    (∀ v, ran v → (declaredBy ran).Holds v.machine) ∧
      (declaredBy ran).Holds ((Machine.start clock dice).interpretAll programs) ∧
      (∀ n decl m m', ran ⟨n, .exec (.traitDef decl), m⟩ → Eval.execute n (.traitDef decl) m = .ok () m' →
        ∃ t included own, m'.lookup? m.scope decl.name.lexeme = some (.trait t) ∧ t.MadeBy decl m included own ∧
          ∀ u ∈ included, u.Declared ran) ∧
      (∀ n decl m m', ran ⟨n, .exec (.classDef decl), m⟩ → Eval.execute n (.classDef decl) m = .ok () m' →
        ∃ c, m'.lookup? m.scope decl.name.lexeme = some (.classObject c) ∧ c.Declared ran ∧ c.Follows ran decl m) ∧
      ∀ c : Class, c.Declared ran → (∃ n decl m, ran ⟨n, .exec (.classDef decl), m⟩ ∧ c.Follows ran decl m) ∧
        ∀ (m : Machine) (id : Nat) (name : Token), (m.fieldsOf id).get? name.lexeme = none →
          Eval.ReadsMethod (.object ⟨id, some c⟩) name m (c.findMethod? name.lexeme) := by
  intro ran
  refine ⟨fun v node => holds_of_ranIn node, holds_interpretAll (List.append_nil programs).symm clock dice, ?_, ?_, ?_⟩
  · intro n decl m m' node ends
    exact exists_trait_of_execute (holds_of_ranIn node) ends
  · intro n decl m m' node ends
    obtain ⟨c, base, included, functions, own, named, declared, made, traits, bases⟩ :=
      exists_class_of_execute node (holds_of_ranIn node) ends
    exact ⟨c, named, declared, made.follows traits bases⟩
  · intro c declared
    refine ⟨?_, ?_⟩
    · obtain ⟨node, made, traits, bases⟩ := declared
      exact ⟨_, _, _, node, made.follows traits bases⟩
    · intro m id name noField
      refine Eval.readsMethod_of_readMember (some c) rfl noField ?_
      intro method found
      exact declared.isFunction found

theorem Eval.ok_of_run' {α : Type} {x : Eval α} {a : α} (ends : x.run' m = some a) : x m = .ok a (x.after m) := by
  unfold after
  cases result : x m with
  | ok => simpa [EStateM.run', EStateM.run, result] using ends
  | error => simp [EStateM.run', EStateM.run, result] at ends

/-! A trait, a class with a method, and a class that extends it, includes the trait and declares a method twice. -/

/-- A method without parameters, and without a body. -/
def emptyMethod (name : String) : FunDecl := ⟨.named name, some [], []⟩

def layeredTrait : TraitDecl := ⟨.named "T", [], [emptyMethod "t"]⟩

def layeredBase : ClassDecl := ⟨.named "A", none, [emptyMethod "m"], [], []⟩

def layeredClass : ClassDecl where
  name := .named "B"
  superclass := some ⟨.named "A", none⟩
  methods := [emptyMethod "n", emptyMethod "n"]
  classMethods := []
  traits := [⟨.named "T", none⟩]

def layeredProgram : List Stmt := [.traitDef layeredTrait, .classDef layeredBase, .classDef layeredClass]

def layeredMachine : Machine :=
  (runAll (execute 1) [.traitDef layeredTrait, .classDef layeredBase]).after (.start {} {})

theorem ran_layeredClass :
    RanIn (.start {} {}) [(1, layeredProgram)] ⟨1, .exec (.classDef layeredClass), layeredMachine⟩ :=
  ⟨[], (1, layeredProgram), [], rfl, .statement (show layeredProgram = [_, _] ++ _ :: [] from rfl) rfl⟩

def layeredAfter : Machine := (execute 1 (.classDef layeredClass)).after layeredMachine

theorem execute_layeredClass : execute 1 (.classDef layeredClass) layeredMachine = .ok () layeredAfter :=
  ok_of_run' (by decide +kernel)

theorem methods_follow_declarations_layered :
    RanIn (.start {} {}) [(1, layeredProgram)] ⟨1, .exec (.classDef layeredClass), layeredMachine⟩ ∧
      Eval.execute 1 (.classDef layeredClass) layeredMachine = .ok () layeredAfter ∧
      ∃ c, layeredAfter.lookup? layeredMachine.scope "B" = some (.classObject c) ∧
        c.Declared (RanIn (.start {} {}) [(1, layeredProgram)]) ∧
        c.Follows (RanIn (.start {} {}) [(1, layeredProgram)]) layeredClass layeredMachine := by
  have classes := (methods_follow_declarations [(1, layeredProgram)] {} {}).2.2.2.1
  exact ⟨ran_layeredClass, execute_layeredClass, classes 1 layeredClass _ _ ran_layeredClass execute_layeredClass⟩

/-! ### Methods of classes themselves -/

/-- The method that the nearest class has for itself, along the classes that are extended. -/
def Class.nearestOwn? (name : String) : Class → Option Method
  | ⟨_, _, none, metaclass, _⟩ => metaclass.bind (·.methods.get? name)
  | ⟨_, _, some base, metaclass, _⟩ => (metaclass.bind (·.methods.get? name)).or (base.nearestOwn? name)

theorem Class.nearestOwn?_eq (c : Class) (name : String) : c.nearestOwn? name =
    (c.metaclass.bind (·.methods.get? name)).or (c.superclass.bind (·.nearestOwn? name)) := by
  obtain ⟨id, label, superclass, metaclass, methods⟩ := c
  cases superclass with
  | none =>
    rw [nearestOwn?]
    exact Option.or_none.symm
  | some => rfl

/-- What is read from a class: the last function of a name that was made for the class itself, else what is found for
the instances of the class that it extends. The methods that this class has for itself are passed over, although they
come next along the classes that are extended. -/
def Class.ReadsOwn (decl : ClassDecl) (m : Machine) (c : Class) : Prop :=
  ∃ base included functions own, c.MadeBy decl m base included functions own ∧
    (∀ name, c.nearestOwn? name = ((lastNamed? own name).map .closure).or (base.bind (·.nearestOwn? name))) ∧
    ∀ (m' : Machine) (name : Token), (m'.fieldsOf c.id).get? name.lexeme = none →
      ReadsMethod (.classObject c) name m'
        (((lastNamed? own name.lexeme).map .closure).or (base.bind (·.findMethod? name.lexeme)))

theorem Class.MadeBy.readsOwn {c : Class} {included : List Trait} {functions own : List Closure}
    (made : c.MadeBy decl m base included functions own) (bases : ∀ b, base = some b → b.Declared ran) :
    c.ReadsOwn decl m := by
  obtain ⟨k, isMetaclass, extended, table⟩ := made.metaclass
  refine ⟨base, included, functions, own, made, ?_, ?_⟩
  · intro name
    rw [nearestOwn?_eq, isMetaclass, made.superclass, Option.bind_some, table]
  · intro m' name noField
    have found : c.metaclass.bind (·.findMethod? name.lexeme) =
        ((lastNamed? own name.lexeme).map .closure).or (base.bind (·.findMethod? name.lexeme)) := by
      rw [isMetaclass, Option.bind_some, findMethod?_eq, table, extended]
    rw [← found]
    refine readsMethod_of_readMember c.metaclass rfl noField ?_
    intro method isFound
    rw [found] at isFound
    exact Method.exists_closure isFound fun b isBase => (bases b isBase).isFunction

/-- Methods of classes themselves are not inherited. In programs that are run one after another, all classes come from
declarations. What is read from a class is a method that its declaration has for the class itself, or a method of the
instances of the class that it extends, in both cases bound to the class that it is read from. -/
theorem own_methods_not_inherited (programs : List (Nat × List Stmt)) (clock dice : Readings) :
    let ran := RanIn (.start clock dice) programs
    (∀ v, ran v → (declaredBy ran).Holds v.machine) ∧
      (∀ n decl m m', ran ⟨n, .exec (.classDef decl), m⟩ → Eval.execute n (.classDef decl) m = .ok () m' →
        ∃ c, m'.lookup? m.scope decl.name.lexeme = some (.classObject c) ∧ c.ReadsOwn decl m) ∧
      ∀ c : Class, c.Declared ran → ∃ n decl m, ran ⟨n, .exec (.classDef decl), m⟩ ∧ c.ReadsOwn decl m := by
  intro ran
  refine ⟨fun v node => holds_of_ranIn node, ?_, ?_⟩
  · intro n decl m m' node ends
    obtain ⟨c, base, included, functions, own, named, -, made, -, bases⟩ :=
      exists_class_of_execute node (holds_of_ranIn node) ends
    exact ⟨c, named, made.readsOwn bases⟩
  · intro c declared
    obtain ⟨node, made, traits, bases⟩ := declared
    exact ⟨_, _, _, node, made.readsOwn bases⟩

/-! A class that has a method for itself, and a class that extends it. -/

def makerBase : ClassDecl := ⟨.named "A", none, [], [emptyMethod "make"], []⟩

def makerClass : ClassDecl :=
  ⟨.named "B", some ⟨.named "A", none⟩, [], [], []⟩

def makerProgram : List Stmt := [.classDef makerBase, .classDef makerClass]

def makerMachine : Machine := (execute 1 (.classDef makerBase)).after (.start {} {})

def makerAfter : Machine := (execute 1 (.classDef makerClass)).after makerMachine

def maker : Class where
  id := 1
  name := "A"
  superclass := none
  metaclass := some ⟨0, "A metaclass", none, none, ⟨[("make", .closure ⟨0, emptyMethod "make", [0], false⟩)]⟩⟩
  methods := .empty

theorem readSuperclass_maker : readSuperclass makerClass.superclass makerMachine = .ok (some maker) makerMachine := rfl

theorem execute_makerClass : execute 1 (.classDef makerClass) makerMachine = .ok () makerAfter :=
  ok_of_run' (by decide +kernel)

theorem fields_makerAfter : makerAfter.fields = #[.empty, .empty, .empty, .empty] := rfl

theorem ran_makerClass : RanIn (.start {} {}) [(1, makerProgram)] ⟨1, .exec (.classDef makerClass), makerMachine⟩ :=
  ⟨[], (1, makerProgram), [], rfl, .statement (show makerProgram = [_] ++ _ :: [] from rfl) rfl⟩

/-- The second class has no method of that name, though the class that it extends has one for itself. -/
theorem own_method_unread_maker :
    RanIn (.start {} {}) [(1, makerProgram)] ⟨1, .exec (.classDef makerClass), makerMachine⟩ ∧
      Eval.execute 1 (.classDef makerClass) makerMachine = .ok () makerAfter ∧
      ∃ c, makerAfter.lookup? makerMachine.scope "B" = some (.classObject c) ∧ c.superclass = some maker ∧
        (c.nearestOwn? "make").isSome = true ∧
        Eval.readProperty (.classObject c) (.named "make") makerAfter =
          .error (.error (.named "make") (.undefinedProperty "make")) makerAfter := by
  have classes := (own_methods_not_inherited [(1, makerProgram)] {} {}).2.1
  obtain ⟨c, named, base, included, functions, own, made, nearest, reads⟩ :=
    classes 1 makerClass _ _ ran_makerClass execute_makerClass
  obtain rfl : base = some maker := by
    cases made.extended.symm.trans readSuperclass_maker
    rfl
  obtain rfl : own = [] := List.map_eq_nil_iff.mp made.ownMade.decls
  have noField : (makerAfter.fieldsOf c.id).get? "make" = none := by
    rw [Machine.fieldsOf, fields_makerAfter]
    rcases c.id with _ | _ | _ | _ | id <;> rfl
  refine ⟨ran_makerClass, execute_makerClass, c, named, made.superclass, ?_, ?_⟩
  · rw [nearest]
    rfl
  · rcases reads makerAfter (.named "make") noField with ⟨f, bound, m', found, -⟩ | ⟨-, failed⟩
    · cases found
    · exact failed

end LoxLang
