import LoxLang.Proofs.SuperDispatch

/-!
What reading a method yields. From an object a method is read bound to that object, and a getter is run at once. With
`super` the method is bound in the same way, but a getter is not run: the function itself is what is read.
-/

namespace LoxLang

open Eval

/-- The value is an object whose class finds a function under a name, and it has no field of that name. -/
def Value.Finds (value : Value) (name : String) (m : Machine) (g : Closure) : Prop :=
  ∃ o c, value = .object o ∧ o.madeBy = some c ∧ (m.fieldsOf o.id).get? name = none ∧
    c.findMethod? name = some (.closure g)

namespace Eval

/-- A function is bound to a value, and is what is read. -/
def Binds (g : Closure) (receiver : Value) (m : Machine) (result : EStateM.Result Ending Machine Value) : Prop :=
  ∃ bound m₁, g.BoundTo receiver m bound m₁ ∧ result = .ok (.function bound) m₁

/-- A function is bound to a value and called, and what is read is the result of that. -/
def BindsAndCalls (n : Nat) (g : Closure) (receiver : Value) (m : Machine)
    (result : EStateM.Result Ending Machine Value) : Prop :=
  ∃ bound m₁, g.BoundTo receiver m bound m₁ ∧ result = Call.run ⟨n, bound, [], m₁⟩

/-- What is read from an object: getters are called, other methods are not. -/
theorem reads_of_finds {n : Nat} {object : Expr} {receiver : Value} {name : Token} {m m₁ : Machine} {g : Closure}
    (evaluated : evaluate n object m = .ok receiver m₁) (finds : receiver.Finds name.lexeme m₁ g) :
    if g.decl.isGetter then BindsAndCalls n g receiver m₁ (evaluate (n + 1) (.get object name) m)
    else Binds g receiver m₁ (evaluate (n + 1) (.get object name) m) := by
  obtain ⟨o, c, rfl, made, noField, found⟩ := finds
  have methods : o.madeBy.bind (·.findMethod? name.lexeme) = some (.closure g) := by rw [made, Option.bind_some, found]
  have member : readProperty (.object o) name = readMember (.object o) o.id o.madeBy name := rfl
  have functions (method : Method) (isFound : o.madeBy.bind (·.findMethod? name.lexeme) = some method) :
      ∃ f, method = .closure f := ⟨g, Option.some.inj (isFound.symm.trans methods)⟩
  rcases readsMethod_of_readMember o.madeBy member noField functions with
    ⟨_, bound, m₂, isFound, read, boundTo⟩ | ⟨missing, -⟩
  · cases methods.symm.trans isFound
    have getter : bound.decl.isGetter = g.decl.isGetter := congrArg _ boundTo.decl
    have ran : evaluate (n + 1) (.get object name) m =
        (if bound.decl.isGetter then callClosure (execute n) bound [] else return .function bound) m₂ :=
      (bind_of_ok evaluated).trans (bind_of_ok read)
    rw [getter] at ran
    split <;> rename_i isGetter
    · exact ⟨bound, m₂, boundTo, ran.trans (by rw [if_pos isGetter]; rfl)⟩
    · exact ⟨bound, m₂, boundTo, ran.trans (by rw [if_neg isGetter]; rfl)⟩
  · cases methods.symm.trans missing

end Eval

/-- Getters are run where they are read from objects, and nowhere else. In the run of an accepted program, let a class be
declared that extends another, and let `super` be used in a method of it for a name under which that other class finds a
function. Then `super` yields this function itself, bound to the object of the method, whether it is a getter or not.
Where any object finds the same function under that name, reading it from the object binds it in the same way; but a
getter is called then, and its result is what is read. -/
theorem super_leaves_getters_unrun {source : String} {program : List Stmt} (accepted : Accepted source program)
    (fuel : Nat) (clock dice : Readings) {n : Nat} {decl : ClassDecl} {m : Machine} {base : Class}
    (declared : Reached program fuel (.start clock dice) ⟨n + 1, .exec (.classDef decl), m⟩)
    (extended : Eval.readSuperclass decl.superclass m = .ok (some base) m) {f : Closure}
    (method : f ∈ (m.classSite decl (some base)).instanceFunctions decl) {v : Visit} {c : Call} {self : Value}
    (reached : Reached program fuel (.start clock dice) v) (calls : v.Calls c) (ofMethod : c.OfMethod f self)
    {k : Nat} {keyword name : Token} {depth : Option Nat} {m' : Machine}
    (houses : c.Houses program fuel (.start clock dice) ⟨k + 1, .eval (.super keyword name depth), m'⟩)
    {g : Closure} (found : base.findMethod? name.lexeme = some (.closure g)) :
    Eval.Binds g self m' (Eval.evaluate (k + 1) (.super keyword name depth) m') ∧
      ∀ j object receiver m₀ m₁, Eval.evaluate j object m₀ = .ok receiver m₁ → receiver.Finds name.lexeme m₁ g →
        if g.decl.isGetter then Eval.BindsAndCalls j g receiver m₁ (Eval.evaluate (j + 1) (.get object name) m₀)
        else Eval.Binds g receiver m₁ (Eval.evaluate (j + 1) (.get object name) m₀) := by
  refine ⟨?_, fun j object receiver m₀ m₁ evaluated finds => Eval.reads_of_finds evaluated finds⟩
  rcases Run.findsSuper (r := .ofAccepted accepted fuel clock dice) declared extended method reached calls ofMethod houses
    with ⟨_, bound, m₁, isFound, ends, boundTo⟩ | ⟨missing, -⟩
  · cases found.symm.trans isFound
    exact ⟨bound, m₁, boundTo, ends⟩
  · cases found.symm.trans missing

/-! The method that calls upon the class which is extended, for a getter. -/

def gettingSource : String := "class A\x7bm\x7b\x7d\x7dclass B<A\x7bm()\x7bsuper.m;\x7d\x7dB().m();"

theorem accepted_getting : Accepted gettingSource (upwardProgram none (some 2)) :=
  .of_steps rfl rfl rfl (Grammar.derives_statements .oneLine (upwardProgram none none) rfl) rfl rfl

/-- An object that finds the getter. -/
def gettingObject : Expr := .call (.var (.named "A") none) ⟨.rightParen, ")", .nil, 1⟩ []

/-- With `super` the getter is read as a function; read from the object, it is called and yields nil. -/
theorem super_leaves_getter_unrun :
    (∃ bound m₁, Eval.evaluate 2 (upwardUse (some 2)) (upwardCalled none).entry = .ok (.function bound) m₁ ∧
      bound.decl = upwardFound none) ∧
    ∃ bound m₁ m₂, Eval.evaluate 3 (.get gettingObject (.named "m")) (upwardCalled none).entry =
        Call.run ⟨2, bound, [], m₁⟩ ∧
      bound.decl = upwardFound none ∧ Call.run ⟨2, bound, [], m₁⟩ = .ok .nil m₂ := by
  obtain ⟨⟨bound, m₁, boundTo, ends⟩, reads⟩ := super_leaves_getters_unrun accepted_getting 5 {} {}
    (reached_upwardClass none) (readSuperclass_upward none) (mem_upwardFunction none) (reached_upwardCall none)
    (calls_upward none) ⟨rfl, 2, rfl, rfl⟩ (houses_upward none) (g := ⟨0, upwardFound none, [0], false⟩) rfl
  have object : ∃ o c m, Eval.evaluate 2 gettingObject (upwardCalled none).entry = .ok (.object o) m ∧
      o.madeBy = some c ∧ (m.fieldsOf o.id).get? "m" = none ∧
      c.findMethod? "m" = some (.closure ⟨0, upwardFound none, [0], false⟩) := ⟨_, _, _, rfl, rfl, rfl, rfl⟩
  obtain ⟨o, c, m, evaluated, made, noField, found⟩ := object
  obtain ⟨called, m₂, calledTo, result⟩ := reads 2 gettingObject _ _ _ evaluated ⟨o, c, rfl, made, noField, found⟩
  have yields : ∃ m₃, Eval.evaluate 3 (.get gettingObject (.named "m")) (upwardCalled none).entry = .ok .nil m₃ := ⟨_, rfl⟩
  obtain ⟨m₃, yields⟩ := yields
  exact ⟨⟨bound, m₁, ends, boundTo.decl⟩, called, m₂, m₃, result, calledTo.decl, result.symm.trans yields⟩

end LoxLang
