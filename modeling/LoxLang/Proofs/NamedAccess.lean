import LoxLang.Proofs.Effects

/-!
Variables by name and by depth. Looking for a name walks out along a chain of frames to the nearest one that has it; a
depth names a frame outright. Where the depth is that of the nearest frame, both ways read and bind the same variable.
-/

namespace LoxLang

namespace Machine

variable {m : Machine} {chain : Frames} {name other : String} {id : FrameId} {depth : Nat}

/-- The frame that number of steps out has the name. -/
def BoundAt (m : Machine) (chain : Frames) (name : String) (depth : Nat) : Prop :=
  ∃ id, chain[depth]? = some id ∧ (m.frame id).contains name = true

/-- The fewest steps out to a frame that has the name. -/
def Nearest (m : Machine) (chain : Frames) (name : String) (depth : Nat) : Prop :=
  m.BoundAt chain name depth ∧ ∀ nearer < depth, ¬ m.BoundAt chain name nearer

theorem Nearest.findFrame? (nearest : m.Nearest chain name depth) (here : chain[depth]? = some id) :
    m.findFrame? chain name = some id := by
  obtain ⟨⟨_, same, bound⟩, least⟩ := nearest
  obtain rfl := Option.some.inj (here.symm.trans same)
  obtain ⟨inside, isId⟩ := List.getElem?_eq_some_iff.mp here
  refine List.find?_eq_some_iff_getElem.mpr ⟨bound, depth, inside, isId, fun nearer before => ?_⟩
  have unbound := least nearer before
  simp only [BoundAt, not_exists, not_and, Bool.not_eq_true] at unbound
  simp [unbound _ (List.getElem?_eq_getElem (Nat.lt_trans before inside))]

theorem findFrame?_of_unbound (unbound : ∀ depth, ¬ m.BoundAt chain name depth) : m.findFrame? chain name = none := by
  refine List.find?_eq_none.mpr fun id member bound => ?_
  obtain ⟨depth, here⟩ := List.mem_iff_getElem?.mp member
  exact unbound depth ⟨id, here, bound⟩

theorem Nearest.drop (nearest : m.Nearest chain name depth) {k : Nat} (within : k ≤ depth) :
    m.Nearest (chain.drop k) name (depth - k) := by
  have shifted (j : Nat) : m.BoundAt (chain.drop k) name j ↔ m.BoundAt chain name (k + j) := by
    simp only [BoundAt, List.getElem?_drop]
  refine ⟨(shifted _).mpr ?_, fun nearer before bound => ?_⟩
  · rw [Nat.add_sub_cancel' within]
    exact nearest.1
  · exact nearest.2 (k + nearer) (by omega) ((shifted _).mp bound)

/-! ### Binding a name that a frame has -/

variable (bound : (m.frame id).contains name = true) (value : Value)
include bound

theorem get?_frame_bind (frame : FrameId) : ((m.bind id name value).frame frame).get? other =
    if frame = id ∧ other = name then some value else (m.frame frame).get? other := by
  by_cases same : frame = id
  · subst same
    rw [frame_bind_self (lt_size_of_contains bound)]
    by_cases named : other = name
    · rw [if_pos ⟨rfl, named⟩, named, Bindings.get?_put_self]
    · rw [if_neg fun both => named both.2, Bindings.get?_put_of_ne _ _ named]
  · rw [frame_bind_of_ne same, if_neg fun both => same both.1]

theorem findFrame?_bind (chain : Frames) (other : String) :
    (m.bind id name value).findFrame? chain other = m.findFrame? chain other := by
  have same (frame : FrameId) : ((m.bind id name value).frame frame).contains other = (m.frame frame).contains other := by
    rw [Bindings.contains, Bindings.contains, get?_frame_bind bound]
    by_cases both : frame = id ∧ other = name
    · obtain ⟨rfl, rfl⟩ := both
      rw [if_pos ⟨rfl, rfl⟩]
      exact bound.symm
    · rw [if_neg both]
  simp only [findFrame?, same]

/-- From any chain, the new value is what is found where the frame is found, and all else is as before. -/
theorem lookup?_bind (chain : Frames) (other : String) : (m.bind id name value).lookup? chain other =
    if other = name ∧ m.findFrame? chain name = some id then some value else m.lookup? chain other := by
  rw [lookup?, lookup?, findFrame?_bind bound]
  cases found : m.findFrame? chain other with
  | none =>
    rw [if_neg]
    · rfl
    · rintro ⟨rfl, here⟩
      cases found.symm.trans here
  | some =>
    simp only [Option.bind_some, get?_frame_bind bound]
    refine if_congr ?_ rfl rfl
    constructor
    · rintro ⟨rfl, rfl⟩
      exact ⟨rfl, found⟩
    · rintro ⟨rfl, here⟩
      exact ⟨Option.some.inj (found.symm.trans here), rfl⟩

end Machine

namespace Eval

open Machine

theorem run'_getNamed (chain : Frames) (name : Token) (m : Machine) :
    (getNamed chain name).run' m = m.lookup? chain name.lexeme := by
  have here : (get : Eval Machine) m = .ok m m := rfl
  rw [EStateM.run', EStateM.run, getNamed, bind_of_ok here]
  cases m.lookup? chain name.lexeme <;> rfl

theorem run'_getAt (chain : Frames) (depth : Nat) (name : String) (m : Machine) :
    (getAt chain depth name).run' m = chain[depth]?.map fun id => ((m.frame id).get? name).getD .nil := by
  cases here : chain[depth]? <;> simp only [EStateM.run', EStateM.run, getAt, ancestor, here] <;> rfl

theorem getNamed_of_unbound {m : Machine} {chain : Frames} {name : Token}
    (missing : m.findFrame? chain name.lexeme = none) (value : Value) :
    getNamed chain name m = .error (.error name (.undefinedVariable name.lexeme)) m ∧
      assignNamed chain name value m = .error (.error name (.undefinedVariable name.lexeme)) m := by
  have here : (get : Eval Machine) m = .ok m m := rfl
  rw [getNamed, assignNamed, bind_of_ok here, bind_of_ok here, lookup?, missing]
  exact ⟨rfl, rfl⟩

section
variable {m : Machine} {chain : Frames} {name : Token} {depth : Nat} (nearest : m.Nearest chain name.lexeme depth)
include nearest

theorem getNamed_of_nearest : ∃ old, getNamed chain name m = .ok old m ∧ getAt chain depth name.lexeme m = .ok old m := by
  have ⟨id, at_, bound⟩ := nearest.1
  have ⟨old, isOld⟩ := Option.isSome_iff_exists.mp bound
  have here : (get : Eval Machine) m = .ok m m := rfl
  refine ⟨old, ?_, ?_⟩
  · rw [getNamed, bind_of_ok here, lookup?, nearest.findFrame? at_]
    simp only [Option.bind_some, isOld]
    rfl
  · have found : ancestor chain depth m = .ok id m := by
      simp only [ancestor, at_]
      rfl
    rw [getAt, bind_of_ok found, bind_of_ok here, isOld]
    rfl

theorem assignNamed_of_nearest {id : FrameId} (at_ : chain[depth]? = some id) (value : Value) :
    assignNamed chain name value m = .ok () (m.bind id name.lexeme value) ∧
      assignAt chain depth name.lexeme value m = .ok () (m.bind id name.lexeme value) := by
  have here : (get : Eval Machine) m = .ok m m := rfl
  rw [assignNamed, bind_of_ok here, nearest.findFrame? at_]
  simp only [assignAt, ancestor, at_]
  exact ⟨rfl, rfl⟩

end

/-- Access by name is access at the depth of the nearest frame that has the name, and binding a variable is seen from
every frame inside of it, but not from those further out, and by no other name. -/
theorem named_eq_at_nearest (m : Machine) {chain : Frames} (distinct : chain.Nodup) (name : Token) (value : Value) :
    (∀ depth, m.Nearest chain name.lexeme depth →
      (∃ old, getNamed chain name m = .ok old m ∧ getAt chain depth name.lexeme m = .ok old m) ∧
      ∃ m', assignNamed chain name value m = .ok () m' ∧ assignAt chain depth name.lexeme value m = .ok () m' ∧
        (∀ k ≤ depth, (getNamed (chain.drop k) name).run' m' = some value ∧
          (getAt (chain.drop k) (depth - k) name.lexeme).run' m' = some value) ∧
        (∀ k, depth < k → (getNamed (chain.drop k) name).run' m' = (getNamed (chain.drop k) name).run' m ∧
          (getAt chain k name.lexeme).run' m' = (getAt chain k name.lexeme).run' m) ∧
        ∀ other : Token, other.lexeme ≠ name.lexeme → ∀ frames k,
          (getNamed frames other).run' m' = (getNamed frames other).run' m ∧
            (getAt frames k other.lexeme).run' m' = (getAt frames k other.lexeme).run' m) ∧
    ((∀ depth, ¬ m.BoundAt chain name.lexeme depth) →
      getNamed chain name m = .error (.error name (.undefinedVariable name.lexeme)) m ∧
        assignNamed chain name value m = .error (.error name (.undefinedVariable name.lexeme)) m) := by
  refine ⟨fun depth nearest => ⟨getNamed_of_nearest nearest, ?_⟩, fun unbound =>
    getNamed_of_unbound (findFrame?_of_unbound unbound) value⟩
  obtain ⟨id, at_, bound⟩ := nearest.1
  obtain ⟨byName, byDepth⟩ := assignNamed_of_nearest nearest at_ value
  refine ⟨_, byName, byDepth, fun k inside => ?_, fun k outside => ?_, fun other different frames k => ?_⟩
  · have still : (chain.drop k)[depth - k]? = some id := by rw [List.getElem?_drop, Nat.add_sub_cancel' inside, at_]
    have found := (nearest.drop inside).findFrame? still
    rw [run'_getNamed, lookup?_bind bound, if_pos ⟨rfl, found⟩, run'_getAt, still, Option.map_some, get?_frame_bind bound,
      if_pos ⟨rfl, rfl⟩]
    exact ⟨rfl, rfl⟩
  · -- The frames of a chain are different ones, so the frame is not met again further out.
    have inside : depth < chain.length := (List.getElem?_eq_some_iff.mp at_).1
    have apart {j : Nat} (further : depth < j) : chain[j]? ≠ some id := fun again =>
      Nat.ne_of_lt further ((List.getElem?_inj inside distinct).mp (at_.trans again.symm))
    constructor
    · rw [run'_getNamed, run'_getNamed, lookup?_bind bound, if_neg]
      rintro ⟨-, found⟩
      obtain ⟨j, here⟩ := List.mem_iff_getElem?.mp (List.mem_of_find?_eq_some found)
      rw [List.getElem?_drop] at here
      exact apart (Nat.lt_add_right j outside) here
    · rw [run'_getAt, run'_getAt]
      cases here : chain[k]? with
      | none => rfl
      | some frame =>
        have elsewhere : frame ≠ id := fun same => apart outside (same ▸ here)
        simp only [Option.map_some, get?_frame_bind bound, elsewhere, false_and, if_false]
  · rw [run'_getNamed, run'_getNamed, lookup?_bind bound, if_neg fun both => different both.1, run'_getAt, run'_getAt]
    simp only [get?_frame_bind bound, different, and_false, if_false, and_self]

/-! A variable that hides a global one of the same name, seen from inside of a block. -/

def shadowing : Machine :=
  { Machine.blank {} {} with frames := #[⟨[("x", .bool true)]⟩, ⟨[("x", .nil)]⟩, .empty], scope := [2, 1, 0] }

/-- The new value is seen from the block, and the global variable is as it was. -/
theorem named_eq_at_nearest_shadowing :
    let name : Token := ⟨.identifier, "x", .nil, 1⟩
    shadowing.scope.Nodup ∧ shadowing.Nearest shadowing.scope "x" 1 ∧
      ∃ m', assignNamed shadowing.scope name (.bool false) shadowing = .ok () m' ∧
        assignAt shadowing.scope 1 "x" (.bool false) shadowing = .ok () m' ∧
        (getNamed shadowing.scope name).run' m' = some (.bool false) ∧
        (getNamed [0] name).run' m' = (getNamed [0] name).run' shadowing := by
  intro name
  have distinct : shadowing.scope.Nodup := by decide
  have nearest : shadowing.Nearest shadowing.scope "x" 1 := by
    refine ⟨⟨1, rfl, rfl⟩, fun nearer before bound => ?_⟩
    obtain rfl := Nat.lt_one_iff.mp before
    obtain ⟨id, here, bound⟩ := bound
    obtain rfl := Option.some.inj here
    cases bound
  obtain ⟨-, m', byName, byDepth, inside, outside, -⟩ :=
    (named_eq_at_nearest shadowing distinct name (.bool false)).1 1 nearest
  exact ⟨distinct, nearest, m', byName, byDepth, (inside 0 (Nat.zero_le 1)).1, (outside 2 Nat.one_lt_two).1⟩

end Eval

end LoxLang
