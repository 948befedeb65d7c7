import LoxLang.Proofs.ScopeRestored

/-!
What a declaration of a class or a trait leaves behind when it fails. The class that a class extends is read before
anything is bound, so a failure there changes nothing. After that the declared name is bound to nil, and it stays so
when including the traits or taking up the methods fails: an earlier value of the name is lost.
-/

namespace LoxLang

variable {m m' : Machine}

/-- The name that the declaration of a class or a trait binds. -/
def Stmt.objectName? : Stmt → Option String
  | .classDef decl => some decl.name.lexeme
  | .traitDef decl => some decl.name.lexeme
  | _ => none

/-- The declaration gets as far as binding its name: only the class that a class extends is read before. -/
def Stmt.Opens (m : Machine) (base : Option Class) : Stmt → Prop
  | .classDef decl => Eval.readSuperclass decl.superclass m = .ok base m
  | .traitDef _ => base = none
  | _ => False

namespace Machine

/-- The frame in sight first, in which the next variable will be bound. -/
def InnermostIs (m : Machine) (id : FrameId) : Prop := m.scope.head? = some id ∧ id < m.frames.size

instance (m : Machine) (id : FrameId) : Decidable (m.InnermostIs id) := inferInstanceAs (Decidable (_ ∧ _))

def valueIn (m : Machine) (id : FrameId) (x : String) : Option Value := (m.frame id).get? x

theorem valueIn_of_frames (same : m'.frames = m.frames) (id : FrameId) (x : String) :
    m'.valueIn id x = m.valueIn id x := by
  simp only [valueIn, frame, same]

theorem valueIn_of_outside {id : FrameId} (outside : ¬ id < m.frames.size) (x : String) : m.valueIn id x = none := by
  rw [valueIn, frame, Array.getElem?_eq_none (Nat.le_of_not_lt outside)]
  rfl

theorem size_defining (m : Machine) (name : String) (value : Value) :
    (m.defining name value).frames.size = m.frames.size := by
  unfold defining
  split
  · rfl
  · exact m.size_bind ..

theorem valueIn_bind (m : Machine) (id other : FrameId) (name x : String) (value : Value) :
    (m.bind id name value).valueIn other x =
      if (other = id ∧ id < m.frames.size) ∧ x = name then some value else m.valueIn other x := by
  by_cases here : other = id ∧ id < m.frames.size
  · obtain ⟨rfl, inside⟩ := here
    rw [valueIn, frame_bind_self inside]
    by_cases same : x = name
    · rw [same, if_pos ⟨⟨rfl, inside⟩, rfl⟩, Bindings.get?_put_self]
    · rw [if_neg fun both => same both.2, Bindings.get?_put_of_ne _ _ same, valueIn]
  · rw [if_neg fun both => here both.1]
    by_cases same : other = id
    · subst same
      have outside : ¬ other < m.frames.size := fun inside => here ⟨rfl, inside⟩
      rw [valueIn_of_outside outside, valueIn_of_outside (by rwa [size_bind])]
    · rw [valueIn, frame_bind_of_ne same, valueIn]

theorem valueIn_defining (m : Machine) (name : String) (value : Value) (id : FrameId) (x : String) :
    (m.defining name value).valueIn id x = if m.InnermostIs id ∧ x = name then some value else m.valueIn id x := by
  cases chain : m.scope with
  | nil => simp [defining, InnermostIs, chain]
  | cons inner =>
    have first : m.InnermostIs id ↔ id = inner ∧ inner < m.frames.size := by
      rw [InnermostIs, chain, List.head?_cons, Option.some_inj]
      constructor
      · rintro ⟨rfl, inside⟩
        exact ⟨rfl, inside⟩
      · rintro ⟨rfl, inside⟩
        exact ⟨rfl, inside⟩
    simp only [defining, chain, valueIn_bind, first]

theorem valueIn_entering (m : Machine) (base : Option Class) (id : FrameId) (x : String) :
    (m.entering base).valueIn id x =
      if id = m.frames.size ∧ x = superName then base.map .classObject else m.valueIn id x := by
  have fresh : m.valueIn m.frames.size x = none := valueIn_of_outside (Nat.lt_irrefl _) x
  cases base with
  | none =>
    split
    · rename_i both
      rw [both.1]
      exact fresh
    · rfl
  | some base =>
    have pushed (id : FrameId) : (m.entering (some base)).valueIn id x =
        ({ m with frames := m.frames.push (Bindings.empty.put superName (.classObject base)) }.frame id).get? x := rfl
    rw [pushed]
    rcases Nat.lt_trichotomy id m.frames.size with inside | rfl | outside
    · rw [frame_push_of_lt inside, if_neg fun both => Nat.ne_of_lt inside both.1, valueIn]
    · rw [frame_push_size]
      by_cases same : x = superName
      · rw [same, if_pos ⟨rfl, rfl⟩, Bindings.get?_put_self]
        rfl
      · rw [if_neg fun both => same both.2, Bindings.get?_put_of_ne _ _ same, fresh]
        rfl
    · have beyond : (m.entering (some base)).frames.size ≤ id := by
        simp only [entering, Array.size_push]
        exact outside
      rw [if_neg fun both => Nat.ne_of_gt outside both.1, valueIn_of_outside (Nat.lt_asymm outside), ← pushed,
        valueIn_of_outside (Nat.not_lt_of_ge beyond)]

end Machine

namespace Eval

theorem assignNamed_of_error {chain : Frames} {name : Token} {value : Value} {ending : Ending}
    (fails : assignNamed chain name value m = .error ending m') : m' = m := by
  have here : (get : Eval Machine) m = .ok m m := rfl
  rw [assignNamed, bind_of_ok here] at fails
  cases found : m.findFrame? chain name.lexeme with
  | none =>
    rw [found] at fails
    cases fails
    rfl
  | some =>
    rw [found] at fails
    cases fails

/-- A failing declaration has not bound anything yet, or it leaves the frames as they are while it is carried out. -/
theorem frames_of_failed {s : Stmt} {name : String} {fuel : Nat} {ending : Ending}
    (declares : s.objectName? = some name) (fails : execute fuel s m = .error ending m')
    (stopped : ending ≠ .outOfFuel) : (m' = m ∧ ∀ base, ¬ s.Opens m base) ∨
      ∃ base, s.Opens m base ∧ m'.frames = ((m.defining name .nil).entering base).frames := by
  cases fuel with
  | zero =>
    cases fails
    exact absurd rfl stopped
  | succ =>
    cases s with
    | classDef decl =>
      cases declares
      have fails : declareClass decl m = .error ending m' := fails
      rcases looks_readSuperclass decl.superclass m with ⟨base, read⟩ | ⟨_, unread, -⟩
      · refine .inr ⟨base, read, ?_⟩
        rcases declareClass_of_read read with ⟨_, m₁, failed, ends⟩ | ⟨c, m₁, made, ends⟩
        · rcases makeClass_cases (m.classSite decl base) decl base with ⟨_, -, -, made⟩ | ⟨_, -, unmade, -⟩
          · cases failed.symm.trans made
          · cases ends.symm.trans fails
            cases failed.symm.trans unmade
            rfl
        · rcases makeClass_cases (m.classSite decl base) decl base with ⟨_, -, -, made'⟩ | ⟨_, -, unmade, -⟩
          · cases made.symm.trans made'
            rw [assignNamed_of_error (ends.symm.trans fails)]
            rfl
          · cases made.symm.trans unmade
      · refine .inl ⟨?_, fun base opens => ?_⟩
        · cases fails.symm.trans (bind_of_error unread)
          rfl
        · cases unread.symm.trans opens
    | traitDef decl =>
      cases declares
      have fails : declareTrait decl m = .error ending m' := fails
      refine .inr ⟨none, rfl, ?_⟩
      rcases declareTrait_cases m decl with ⟨_, _, -, ends⟩ | ⟨_, -, -, ends⟩
      · cases ends.symm.trans fails
        rfl
      · rw [assignNamed_of_error (ends.symm.trans fails)]
        rfl
    | _ => cases declares

end Eval

/-- A declaration of a class or a trait that fails, from any machine. If it fails at the class that the class extends,
nothing has changed. Otherwise the declared name is nil in the innermost frame, whatever it was before, a class that
extends another has left one more frame with `super`, and no other variable of any frame has changed; so all variables
are as before exactly if no class is extended and the name was nil already. -/
theorem failed_declaration_leaves_nil {s : Stmt} {name : String} {fuel : Nat} {m m' : Machine} {ending : Ending}
    (declares : s.objectName? = some name) (fails : Eval.execute fuel s m = .error ending m')
    (stopped : ending ≠ .outOfFuel) :
    (m' = m ∧ ∀ base, ¬ s.Opens m base) ∨
      ∃ base, s.Opens m base ∧
        (∀ id x, m'.valueIn id x =
          if id = m.frames.size ∧ x = superName then base.map .classObject
          else if m.InnermostIs id ∧ x = name then some .nil
          else m.valueIn id x) ∧
        ((∀ id x, m'.valueIn id x = m.valueIn id x) ↔
          base = none ∧ ∀ id, m.InnermostIs id → m.valueIn id name = some .nil) := by
  rcases Eval.frames_of_failed declares fails stopped with unchanged | ⟨base, opens, frames⟩
  · exact .inl unchanged
  have values : ∀ id x, m'.valueIn id x =
      if id = m.frames.size ∧ x = superName then base.map .classObject
      else if m.InnermostIs id ∧ x = name then some .nil
      else m.valueIn id x := by
    intro id x
    rw [Machine.valueIn_of_frames frames, Machine.valueIn_entering, Machine.valueIn_defining, Machine.size_defining]
  refine .inr ⟨base, opens, values, ⟨fun same => ⟨?_, fun id innermost => ?_⟩, ?_⟩⟩
  · have added := (values m.frames.size superName).symm.trans (same m.frames.size superName)
    rw [if_pos ⟨rfl, rfl⟩, Machine.valueIn_of_outside (Nat.lt_irrefl _)] at added
    exact Option.map_eq_none_iff.mp added
  · have bound := (values id name).symm.trans (same id name)
    rw [if_neg fun both => Nat.ne_of_lt innermost.2 both.1, if_pos ⟨innermost, rfl⟩] at bound
    exact bound.symm
  · rintro ⟨rfl, wasNil⟩ id x
    rw [values]
    split
    · rename_i added
      rw [added.1, Machine.valueIn_of_outside (Nat.lt_irrefl _)]
      rfl
    · split
      · rename_i bound
        rw [bound.2, wasNil id bound.1]
      · rfl

/-- The machine after `var A = true; var B = true;`. -/
def Machine.twoNames : Machine :=
  { Machine.blank {} {} with frames := #[⟨[("A", .bool true), ("B", .bool true)]⟩] }

/-- The class `B` that includes `A` as if it were a trait. -/
def untraited : Stmt :=
  .classDef ⟨.named "B", none, [], [], [⟨.named "A", none⟩]⟩

theorem failed_declaration_leaves_nil_untraited :
    Eval.runAll (Eval.execute 2)
        [.var (.named "A") (some (.literal (.bool true))),
          .var (.named "B") (some (.literal (.bool true)))] (.blank {} {}) = .ok () .twoNames ∧
      ∃ ending m', Eval.execute 1 untraited .twoNames = .error ending m' ∧ ending ≠ .outOfFuel ∧
        Machine.twoNames.valueIn 0 "B" = some (.bool true) ∧ m'.valueIn 0 "B" = some .nil ∧
        ¬ ∀ id x, m'.valueIn id x = Machine.twoNames.valueIn id x := by
  have stopped : Ending.crashed (.declaration (.notTrait "A")) ≠ .outOfFuel := by simp
  refine ⟨rfl, _, _, rfl, stopped, rfl, rfl, fun same => ?_⟩
  have named : untraited.objectName? = some "B" := rfl
  have fails : Eval.execute 1 untraited .twoNames = .error _ _ := rfl
  rcases failed_declaration_leaves_nil named fails stopped with ⟨-, unopened⟩ | ⟨base, -, -, unchanged⟩
  · exact unopened none rfl
  · have bound : Machine.twoNames.valueIn 0 "B" = some .nil := (unchanged.mp same).2 0 ⟨rfl, by decide⟩
    cases bound

end LoxLang
