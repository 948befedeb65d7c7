import LoxLang.Proofs.Lockstep

/-!
Evaluation keeps the frames and the scopes in lockstep. Each part of it is shown to lead from a machine in order to a
machine in order, with the same frames in sight, and never to a fault of a lookup.
-/

namespace LoxLang.Run

open Eval

variable {m' : Machine} {σ : Levels} {ending : Ending} {chain : Frames} {name : String} {depth : Option Nat}
  {value : Value} {decls : List FunDecl} {mention : Mention}

open Scope (Region Level Levels Mention Declares namesOf entered surplus stmtMentions functionsMentions thisRegion
  superRegion declaringIn baseLevels methodLevels placed refMention)

variable {α β : Type} {r : Run} {m : Machine}

/-- A later machine that is in order and has the same frames in sight. -/
structure Follows (r : Run) (m m' : Machine) : Prop where
  scope : m'.scope = m.scope
  grows : m.Grows m'
  ok : r.MachineOk m'

theorem Follows.refl (ok : r.MachineOk m) : r.Follows m m := ⟨rfl, .of_frames rfl, ok⟩

theorem Follows.trans {m'' : Machine} (first : r.Follows m m') (second : r.Follows m' m'') : r.Follows m m'' :=
  ⟨second.scope.trans first.scope, first.grows.trans second.grows, second.ok⟩

theorem Follows.number (ok : r.MachineOk m) : r.Follows m { m with fresh := m.fresh + 1 } :=
  ⟨rfl, .of_frames rfl, ok.aside rfl ok.fields ok.arrays⟩

theorem Follows.lockstep (follows : r.Follows m m') (lockstep : r.Lockstep m σ m.scope) : r.Lockstep m' σ m'.scope := by
  rw [follows.scope]
  exact lockstep.mono follows.grows

/-- A computation ends in order: with a result that has a property, or in one of some ways. -/
def Ends (r : Run) (Way : Ending → Machine → Prop) (m : Machine) (x : Eval α) (Q : α → Machine → Prop) : Prop :=
  match x m with
  | .ok a m' => r.Follows m m' ∧ Q a m'
  | .error ending m' => m.Grows m' ∧ r.MachineOk m' ∧ Way ending m'

/-- A way to end that began with a chain in sight. A loop that is left, and a function that returns, leave it in
sight. -/
def Way (r : Run) (chain : Frames) (ending : Ending) (m : Machine) : Prop :=
  match ending with
  | .broke => m.scope = chain
  | .returned value => m.scope = chain ∧ r.ValueOk m value
  | .crashed fault => r.excludes fault = false
  | .failed _ | .outOfFuel => True

/-- A computation ends in order, and leaves no loop and no function. -/
abbrev Quiet (r : Run) (m : Machine) (x : Eval α) (Q : α → Machine → Prop) : Prop :=
  r.Ends (fun ending _ => r.calms ending = true) m x Q

/-- A computation ends in order. -/
abbrev Sound (r : Run) (m : Machine) (x : Eval α) (Q : α → Machine → Prop) : Prop := r.Ends (r.Way m.scope) m x Q

abbrev Yields (r : Run) (value : Value) (m : Machine) : Prop := r.ValueOk m value

abbrev Anything (_ : α) (_ : Machine) : Prop := True

section
variable {Way : Ending → Machine → Prop} {P Q : α → Machine → Prop} {R : β → Machine → Prop}

theorem ends_of_ok {x : Eval α} {a : α} (ends : x m = .ok a m') (follows : r.Follows m m') (result : Q a m') :
    r.Ends Way m x Q := by
  rw [Ends, ends]
  exact ⟨follows, result⟩

theorem ends_of_error {x : Eval α} (ends : x m = .error ending m') (grows : m.Grows m') (ok : r.MachineOk m')
    (way : Way ending m') : r.Ends Way m x Q := by
  rw [Ends, ends]
  exact ⟨grows, ok, way⟩

theorem Ends.of_ok {x : Eval α} (h : r.Ends Way m x Q) {a : α} (ends : x m = .ok a m') : r.Follows m m' ∧ Q a m' := by
  rwa [Ends, ends] at h

theorem Ends.of_error {x : Eval α} (h : r.Ends Way m x Q) (ends : x m = .error ending m') :
    m.Grows m' ∧ r.MachineOk m' ∧ Way ending m' := by
  rwa [Ends, ends] at h

theorem ends_pure (ok : r.MachineOk m) {a : α} (result : Q a m) : r.Ends Way m (pure a) Q :=
  ends_of_ok rfl (.refl ok) result

theorem ends_throw (ok : r.MachineOk m) (way : Way ending m) :
    r.Ends Way m (throw ending : Eval α) Q := ends_of_error rfl (.of_frames rfl) ok way

theorem Ends.bind {x : Eval α} {f : α → Eval β} (first : r.Ends Way m x P)
    (second : ∀ a m', r.Follows m m' → P a m' → r.Ends Way m' (f a) R) : r.Ends Way m (x >>= f) R := by
  cases ends : x m with
  | error =>
    obtain ⟨grows, ok, way⟩ := first.of_error ends
    exact ends_of_error (bind_of_error ends) grows ok way
  | ok a m' =>
    obtain ⟨follows, result⟩ := first.of_ok ends
    have rest := second a m' follows result
    cases finish : f a m' with
    | error =>
      obtain ⟨grows, ok, way⟩ := rest.of_error finish
      exact ends_of_error ((bind_of_ok ends).trans finish) (follows.grows.trans grows) ok way
    | ok =>
      obtain ⟨more, result⟩ := rest.of_ok finish
      exact ends_of_ok ((bind_of_ok ends).trans finish) (follows.trans more) result

theorem Ends.imp {x : Eval α} (h : r.Ends Way m x P) (weaker : ∀ a m', r.Follows m m' → P a m' → Q a m') :
    r.Ends Way m x Q := by
  cases ends : x m with
  | error =>
    obtain ⟨grows, ok, way⟩ := h.of_error ends
    exact ends_of_error ends grows ok way
  | ok a m' =>
    obtain ⟨follows, result⟩ := h.of_ok ends
    exact ends_of_ok ends follows (weaker a m' follows result)

theorem Ends.ite {p : Prop} [Decidable p] {x y : Eval α} (yes : r.Ends Way m x Q) (no : r.Ends Way m y Q) :
    r.Ends Way m (if p then x else y) Q := by
  split
  · exact yes
  · exact no

theorem ends_get {f : Machine → Eval α} (next : r.Ends Way m (f m) Q) : r.Ends Way m (get >>= f) Q := next

theorem ends_scope {f : Frames → Eval α} (next : r.Ends Way m (f m.scope) Q) : r.Ends Way m (scope >>= f) Q := next

theorem ends_aside {x : Eval α} {a : α} (ends : x m = .ok a m') (ok : r.MachineOk m') (frames : m'.frames = m.frames)
    (scope : m'.scope = m.scope) (result : Q a m') : r.Ends Way m x Q :=
  ends_of_ok ends ⟨scope, .of_frames frames, ok⟩ result

end

theorem way_of_calms (calm : r.calms ending = true) : r.Way chain ending m := by
  cases ending with
  | crashed => simpa [Run.Way, Run.calms] using calm
  | failed | outOfFuel => trivial
  | broke | returned => cases calm

theorem Ends.sound {Q : α → Machine → Prop} {x : Eval α} (quiet : r.Quiet m x Q) : r.Ends (r.Way chain) m x Q := by
  cases ends : x m with
  | error =>
    obtain ⟨grows, ok, calm⟩ := quiet.of_error ends
    exact ends_of_error ends grows ok (way_of_calms calm)
  | ok =>
    obtain ⟨follows, result⟩ := quiet.of_ok ends
    exact ends_of_ok ends follows result

/-! ### Functions -/

section
variable (ok : r.MachineOk m) {Q : α → Machine → Prop}
include ok

theorem quiet_fail (token : Token) (cause : Cause) : r.Quiet m (fail token cause) Q :=
  ends_throw ok rfl

theorem quiet_crash {fault : Fault} (harmless : fault.ofScope = false) :
    r.Quiet m (crash fault) Q := ends_throw ok (by simpa [calms] using excludes_of_harmless harmless)

end

theorem frameOf_keyword (keyword : name = "this" ∨ name = "super") (value : Value) {outer : Frames}
    (below : ∀ id ∈ outer, id < m.frames.size) :
    r.FrameOf { m with frames := m.frames.push (Bindings.empty.put name value) } ⟨[], Scope.setNames [name]⟩
      m.frames.size outer := by
  have only {other : String} {isSet : Bool} (declared : (Scope.setNames [name]).get? other = some isSet) :
      other = name := by
    by_cases same : other = name
    · exact same
    · have absent : (Scope.setNames [name]).get? other = none := Bindings.get?_put_of_ne _ _ same
      exact nomatch absent.symm.trans declared
  refine ⟨by simp, fun other set => ?_, .inr ⟨rfl, fun other isSet declared => only declared ▸ keyword⟩, below⟩
  rw [only set, Machine.frame_push_size]
  exact Bindings.contains_put.mpr (.inl rfl)

/-- A method that is bound to an object finds it in a frame of its own. -/
theorem quiet_bindThis (ok : r.MachineOk m) {f : Closure} (method : r.MethodOk m f) {receiver : Value}
    (object : r.ValueOk m receiver) :
    r.Quiet m (bindThis f receiver) fun bound m' => r.FunctionOk m' bound ∧ bound.decl = f.decl := by
  obtain ⟨level, σ, isThis, code, lockstep⟩ := method
  have pushed := ok.push (Bindings.all_empty.put thisName object)
  have grows := m.grows_push (Bindings.empty.put thisName receiver)
  have around : r.FrameOf _ thisRegion m.frames.size f.frames :=
    frameOf_keyword (m := m) (.inl rfl) receiver lockstep.below
  have function : r.ValueOk { m with frames := m.frames.push (Bindings.empty.put thisName receiver) }
      (.function ⟨m.fresh, f.decl, m.frames.size :: f.frames, f.isInitializer⟩) :=
    ⟨⟨level :: σ, code, isThis ▸ around, lockstep.mono grows⟩, fun _ => ⟨_, _, rfl, around.bound thisName rfl⟩⟩
  refine ends_of_ok rfl ⟨rfl, ⟨grows.size, grows.bound⟩, pushed.aside rfl pushed.fields pushed.arrays⟩ ⟨?_, rfl⟩
  exact function.of_frames rfl

section
variable (ok : r.MachineOk m)
include ok

theorem valueOk_frame (id : FrameId) (name : String) : r.ValueOk m (((m.frame id).get? name).getD .nil) := by
  cases bound : (m.frame id).get? name with
  | none => trivial
  | some => exact (ok.frames id).get? bound

/-- The frame at a depth is there if the run is exact. Otherwise the depth may be too large. -/
theorem quiet_ancestor {depth : Nat} (there : r.exact = true → ∃ id, chain[depth]? = some id) :
    r.Quiet m (ancestor chain depth) fun _ m' => m' = m := by
  cases here : chain[depth]? with
  | some id =>
    have ancestor : ancestor chain depth = return id := by simp only [ancestor, here]
    rw [ancestor]
    exact ends_pure ok rfl
  | none =>
    have ancestor : ancestor chain depth = crash .scopeTooDeep := by simp only [ancestor, here]
    rw [ancestor]
    refine ends_throw ok ?_
    cases isExact : r.exact with
    | true =>
      obtain ⟨id, here'⟩ := there isExact
      cases here.symm.trans here'
    | false =>
      simp only [calms, excludes, isExact]
      rfl

theorem quiet_getAt {depth : Nat} (there : r.exact = true → ∃ id, chain[depth]? = some id) (name : String) :
    r.Quiet m (getAt chain depth name) fun value m' => r.ValueOk m value ∧ m' = m := by
  refine (quiet_ancestor ok there).bind fun id m' follows same => ?_
  subst same
  exact ends_of_ok rfl (.refl ok) ⟨valueOk_frame ok id name, rfl⟩

theorem quiet_readName {name : Token} (there : r.exact = true → ∀ d, depth = some d → ∃ id, m.scope[d]? = some id) :
    r.Quiet m (readName name depth) r.Yields := by
  cases depth with
  | none =>
    unfold readName getNamed
    refine ends_get ?_
    split
    · rename_i value bound
      obtain ⟨id, -, bound⟩ := Option.bind_eq_some_iff.mp bound
      exact ends_pure ok ((ok.frames id).get? bound)
    · exact quiet_fail ok _ _
  | some d =>
    have read := quiet_getAt ok (fun isExact => there isExact d rfl) name.lexeme
    refine Ends.imp (x := readName name (some d)) read fun value m' _ result => ?_
    obtain ⟨fine, rfl⟩ := result
    exact fine

theorem quiet_assignNamed (chain : Frames) (name : Token) (new : r.ValueOk m value) :
    r.Quiet m (assignNamed chain name value) Anything := by
  unfold assignNamed
  refine ends_get ?_
  split
  · exact ends_of_ok rfl ⟨rfl, m.grows_bind _ _ _, ok.bind _ _ new⟩ trivial
  · exact quiet_fail ok _ _

theorem quiet_assignName {name : Token} (there : r.exact = true → ∀ d, depth = some d → ∃ id, m.scope[d]? = some id)
    (new : r.ValueOk m value) : r.Quiet m (assignName name depth value) Anything := by
  cases depth with
  | none => exact quiet_assignNamed ok globalFrames name new
  | some d =>
    have assigned : r.Quiet m (assignAt m.scope d name.lexeme value) Anything := by
      refine (quiet_ancestor ok fun isExact => there isExact d rfl).bind fun id m' follows same => ?_
      subst same
      exact ends_of_ok rfl ⟨rfl, m'.grows_bind _ _ _, ok.bind _ _ new⟩ trivial
    exact assigned

end

/-- What a class has as a method. -/
def MemberOk (r : Run) (m : Machine) (method : Method) : Prop := ∀ f, method = .closure f → r.MethodOk m f

theorem MemberOk.mono {method : Method} (member : r.MemberOk m method) (grows : m.Grows m') :
    r.MemberOk m' method := fun f same => (member f same).mono grows

/-! ### Order all along a run -/

theorem Follows.holds (follows : r.Follows m m') (inSight : m.scope = chain) :
    ∃ u, r.Follows m u ∧ m' = u ∧ r.MachineOk m' ∧ m'.scope = chain :=
  ⟨m', follows, rfl, follows.ok, follows.scope.trans inSight⟩

section
variable (r) (chain : Frames) {Way : Ending → Machine → Prop}
  (calm : ∀ ending m, r.calms ending = true → Way ending m)
include calm

/-- The machine stays in order, with a chain in sight. -/
def upkeep : Upkeep Machine where
  Later := r.Follows
  Allows := r.ValueOk
  Provides := r.MemberOk
  Holds w m := m = w ∧ r.MachineOk m ∧ m.scope = chain
  Way w ending m := w.Grows m ∧ r.MachineOk m ∧ Way ending m
  later_refl holds := .refl (holds.1 ▸ holds.2.1)
  later_trans := .trans
  mono later fine := fine.mono later.grows
  plain := valueOk_of_isPlain
  makes _ fine := by
    rintro _ ⟨⟩
    exact fine
  methods object made found f same := (object _ made).1 _ f (same ▸ found)
  ownMethods fine isMeta found f same := fine.2 _ isMeta _ f (same ▸ found)
  builtin _ := trivial
  fields holds found := holds.1 ▸ (holds.2.1.fields _).get? found
  elements holds member := holds.1 ▸ holds.2.1.arrays _ _ member
  aside _ _ _ _ holds := by
    obtain ⟨rfl, ok, inSight⟩ := holds
    refine Follows.holds ?_ inSight
    exact ⟨rfl, .of_frames rfl, ok.aside rfl ok.fields ok.arrays⟩
  addArray holds new := by
    obtain ⟨rfl, ok, inSight⟩ := holds
    refine Follows.holds ?_ inSight
    exact ⟨rfl, .of_frames rfl, ok.newArray new⟩
  setElement id cell _ holds new := by
    obtain ⟨rfl, ok, inSight⟩ := holds
    refine Follows.holds ?_ inSight
    exact ⟨rfl, .of_frames rfl, ok.setElement id cell new⟩
  setField id name _ holds new := by
    obtain ⟨rfl, ok, inSight⟩ := holds
    refine Follows.holds ?_ inSight
    exact ⟨rfl, .of_frames rfl, ok.setField id name new⟩
  addObject holds := by
    obtain ⟨rfl, ok, inSight⟩ := holds
    refine Follows.holds ?_ inSight
    exact ⟨rfl, .of_frames rfl, ok.newObject⟩
  way_earlier later way := ⟨later.grows.trans way.1, way.2⟩
  failed _ holds := ⟨.of_frames (by rw [holds.1]), holds.2.1, calm _ _ rfl⟩
  crashed holds harmless :=
    ⟨.of_frames (by rw [holds.1]), holds.2.1, calm _ _ (by simp [calms, excludes_of_harmless harmless])⟩
  outOfFuel holds := ⟨.of_frames (by rw [holds.1]), holds.2.1, calm _ _ rfl⟩
  bindThis holds method object := by
    obtain ⟨rfl, ok, inSight⟩ := holds
    obtain ⟨follows, function, decl⟩ := (quiet_bindThis ok (method _ rfl) object).of_ok rfl
    exact ⟨_, _, _, rfl, follows, ⟨rfl, follows.ok, follows.scope.trans inSight⟩, function, decl⟩

end

section
variable {Way : Ending → Machine → Prop} {calm : ∀ ending m, r.calms ending = true → Way ending m} {x : Eval α}
  {Q : α → Machine → Prop} {P : Machine → α → α → Prop}

theorem Ends.follows (ends : r.Ends Way m x Q) (inSight : m.scope = chain) (result : ∀ a m', Q a m' → P m' a a) :
    (r.upkeep chain calm).simulation.Follows m m m x x P := by
  unfold Simulation.Follows
  cases ran : x m with
  | ok a m' =>
    obtain ⟨follows, fine⟩ := ends.of_ok ran
    exact .ok follows ⟨rfl, follows.ok, follows.scope.trans inSight⟩ (result a m' fine)
  | error => exact .error (ends.of_error ran)

theorem ends_of_follows (follows : (r.upkeep chain calm).simulation.Follows m m m x x P)
    (result : ∀ a a' m', P m' a a' → Q a m') : r.Ends Way m x Q := by
  unfold Simulation.Follows at follows
  unfold Ends
  generalize x m = y, x m = y' at follows
  cases follows with
  | ok later holds related =>
    obtain ⟨rfl, -⟩ := holds
    exact ⟨later, result _ _ _ related⟩
  | error way => exact way

end

/-- The run by itself, as long as it leaves no loop and no function. -/
abbrev quietly (r : Run) (chain : Frames) : Simulation Machine :=
  (@upkeep r chain (fun ending _ => r.calms ending = true) fun _ _ => id).simulation

theorem quiet_readProperty (ok : r.MachineOk m) (object : r.ValueOk m value) (name : Token) :
    r.Quiet m (readProperty value name) r.Yields := by
  have read := Simulation.follows_readProperty (S := r.quietly m.scope) ⟨rfl, rfl, ok, rfl⟩ ⟨rfl, object⟩ (rfl : name = name)
  exact ends_of_follows read fun _ _ _ alike => alike.2

/-! ### Declarations -/

/-- The innermost frame in sight has the name. -/
def Innermost (m : Machine) (name : String) : Prop :=
  ∀ id outer, m.scope = id :: outer → (m.frame id).contains name = true

theorem Innermost.mono (bound : Innermost m name) (follows : r.Follows m m') :
    Innermost m' name := fun id outer inSight =>
  follows.grows.bound id name (bound id outer (follows.scope.symm.trans inSight))

theorem Follows.declaring (follows : r.Follows m m') (bound : Innermost m' name) (lockstep : r.Lockstep m σ m.scope)
    (place : Place σ) : r.Lockstep m' (declaringIn name true σ) m'.scope :=
  (follows.lockstep lockstep).declaring place name true fun _ => bound

/-- The innermost frame gets a name. The value may count on that. -/
theorem quiet_define (ok : r.MachineOk m) (lockstep : r.Lockstep m σ m.scope) (name : String)
    (new : ∀ m', m.Grows m' → m'.scope = m.scope → Innermost m' name → r.ValueOk m' value) :
    r.Quiet m (define name value) fun _ m' => Innermost m' name := by
  cases chain : m.scope with
  | nil =>
    rw [chain] at lockstep
    cases σ with
    | nil => exact nomatch lockstep.1
    | cons => exact absurd lockstep id
  | cons inner rest =>
    have inside : inner < m.frames.size := (chain ▸ lockstep).inside
    have bound : Innermost (m.bind inner name value) name := by
      intro id outer inSight
      obtain ⟨rfl, -⟩ : inner = id ∧ rest = outer := by simpa using chain.symm.trans inSight
      rw [Machine.frame_bind_self inside]
      exact Bindings.contains_put.mpr (.inl rfl)
    have grows := m.grows_bind inner name value
    unfold define
    refine ends_scope ?_
    rw [chain]
    exact ends_of_ok rfl ⟨rfl, grows, ok.bind_self inner name (new _ grows rfl bound)⟩ bound

section
variable (ok : r.MachineOk m)
include ok

theorem quiet_includeTraits {refs : List NameRef}
    (there : r.exact = true → ∀ ref ∈ refs, ∀ d, ref.depth = some d → ∃ id, m.scope[d]? = some id)
    {methods : Bindings Closure}
    (old : methods.All (r.MethodOk m)) :
    r.Quiet m (includeTraits methods refs) fun taken m' => taken.All (r.MethodOk m') := by
  induction refs generalizing m methods with
  | nil => exact ends_pure ok old
  | cons ref rest ih =>
    have trait : r.Quiet m (readTrait ref) fun t m' => t.methods.All (r.MethodOk m') := by
      refine (quiet_readName ok fun isExact => there isExact ref List.mem_cons_self).bind fun value m₁ follows fine => ?_
      cases value with
      | trait => exact ends_pure follows.ok fine
      | _ => exact quiet_crash follows.ok rfl
    refine trait.bind fun t m₁ follows new => ?_
    split
    · rename_i taken included
      refine ih follows.ok (fun isExact other member => ?_) ?_
      · rw [follows.scope]
        exact there isExact other (List.mem_cons_of_mem ref member)
      · exact all_includeMethods (old.imp fun f => MethodOk.mono follows.grows) new included
    · exact quiet_crash follows.ok rfl

theorem quiet_makeClosure (lockstep : r.Lockstep m σ m.scope) (decl : FunDecl) (isInitializer : Bool) :
    r.Quiet m (makeClosure decl isInitializer) fun f m' =>
      f.decl = decl ∧ f.isInitializer = isInitializer ∧ r.Lockstep m' σ f.frames :=
  ends_of_ok rfl (.number ok) ⟨rfl, rfl, (Follows.number ok).lockstep lockstep⟩

theorem quiet_addMethods {object : Level} (isThis : object.region = thisRegion) (lockstep : r.Lockstep m σ m.scope)
    (isInitializer : FunDecl → Bool) {methods : Bindings Method} (old : methods.All (r.MemberOk m))
    (code : ∀ decl ∈ decls, r.OfFunction (object :: σ) decl) :
    r.Quiet m (addMethods isInitializer methods decls) fun all m' => all.All (r.MemberOk m') := by
  induction decls generalizing m methods with
  | nil => exact ends_pure ok old
  | cons decl _ ih =>
    refine (quiet_makeClosure ok lockstep decl _).bind fun f m₁ follows made => ?_
    obtain ⟨rfl, -, around⟩ := made
    refine ih follows.ok (follows.lockstep lockstep) ?_ fun other member => code other (List.mem_cons_of_mem _ member)
    refine Bindings.All.put (old.imp fun member fine => fine.mono follows.grows) _ ?_
    rintro _ ⟨⟩
    exact ⟨object, σ, isThis, code f.decl List.mem_cons_self, around⟩

theorem quiet_addTraitMethods (lockstep : r.Lockstep m σ m.scope) {methods : Bindings Closure}
    (old : methods.All (r.MethodOk m)) (code : ∀ decl ∈ decls, r.OfFunction (.scope thisRegion :: σ) decl) :
    r.Quiet m (addTraitMethods methods decls) fun all m' => all.All (r.MethodOk m') := by
  induction decls generalizing m methods with
  | nil => exact ends_pure ok old
  | cons decl _ ih =>
    refine .ite (quiet_crash ok rfl) ((quiet_makeClosure ok lockstep decl _).bind fun f m₁ follows made => ?_)
    obtain ⟨rfl, -, around⟩ := made
    refine ih follows.ok (follows.lockstep lockstep) ?_ fun other member => code other (List.mem_cons_of_mem _ member)
    exact Bindings.All.put (old.imp fun f fine => fine.mono follows.grows) _
      ⟨.scope thisRegion, σ, rfl, code f.decl List.mem_cons_self, around⟩

end

theorem quiet_restoring {enter : Eval Unit} {x : Eval α} {f : α → Eval β} {P : α → Machine → Prop}
    {Q : β → Machine → Prop} {m₁ : Machine} (entered : enter m = .ok () m₁) (grows : m.Grows m₁)
    (inner : r.Quiet m₁ x P)
    (rest : ∀ a m₂, r.Follows m { m₂ with scope := m.scope } → P a m₂ → r.Quiet { m₂ with scope := m.scope } (f a) Q) :
    r.Quiet m (do enter; let a ← x; setScope m.scope; f a) Q := by
  have start (g : Unit → Eval β) : (enter >>= g) m = g () m₁ := bind_of_ok entered
  cases ends : x m₁ with
  | error =>
    obtain ⟨more, fine, calm⟩ := inner.of_error ends
    exact ends_of_error ((start _).trans (bind_of_error ends)) (grows.trans more) fine calm
  | ok a m₂ =>
    obtain ⟨follows, result⟩ := inner.of_ok ends
    have grown := grows.trans follows.grows
    have restored : r.Follows m { m₂ with scope := m.scope } := ⟨rfl, ⟨grown.size, grown.bound⟩, follows.ok.rescope _⟩
    have finish := rest a m₂ restored result
    have run : (do enter; let a ← x; setScope m.scope; f a : Eval β) m = f a { m₂ with scope := m.scope } :=
      (start _).trans (bind_of_ok ends)
    cases last : f a { m₂ with scope := m.scope } with
    | error =>
      obtain ⟨more, fine, calm⟩ := finish.of_error last
      exact ends_of_error (run.trans last) (restored.grows.trans more) fine calm
    | ok =>
      obtain ⟨more, result⟩ := finish.of_ok last
      exact ends_of_ok (run.trans last) (restored.trans more) result

/-- The methods of a class are its own and those of the class it extends. -/
theorem methodOk_of_findMethod? {c : Class} (own : c.methods.All (r.MemberOk m))
    (inherited : ∀ base, c.superclass = some base → r.ClassOk m base) {f : Closure}
    (found : c.findMethod? name = some (.closure f)) : r.MethodOk m f := by
  cases c with
  | mk _ _ superclass =>
    cases superclass with
    | none => exact own.get? found f rfl
    | some base =>
      rcases Option.or_eq_some_iff.mp found with found | ⟨-, found⟩
      · exact own.get? found f rfl
      · exact (inherited base rfl).1 name f found

section
variable (ok : r.MachineOk m)
include ok

theorem quiet_freshId : r.Quiet m freshId Anything := ends_of_ok rfl (.number ok) trivial

theorem quiet_newObject : r.Quiet m newObject Anything := ends_aside rfl ok.newObject rfl rfl trivial

theorem quiet_makeClass {decl : ClassDecl} (lockstep : r.Lockstep m σ m.scope)
    (global : ∀ ref ∈ decl.traits, ref.depth = none)
    (code : ∀ method ∈ decl.methods, r.OfFunction (.scope thisRegion :: σ) method)
    (ownCode : ∀ method ∈ decl.classMethods, r.OfFunction (.own :: σ) method) {base : Option Class}
    (extended : ∀ c, base = some c → r.ClassOk m c) :
    r.Quiet m (makeClass decl base) fun c m' => r.ClassOk m' c := by
  refine (quiet_addMethods ok rfl lockstep _ Bindings.all_empty ownCode).bind fun own m₁ one ownOk => ?_
  refine (quiet_newObject one.ok).bind fun number m₂ two _ => ?_
  have traits : r.exact = true → ∀ ref ∈ decl.traits, ∀ d, ref.depth = some d → ∃ id, m₂.scope[d]? = some id :=
    fun _ ref member d kept => nomatch (global ref member).symm.trans kept
  refine (quiet_includeTraits two.ok traits Bindings.all_empty).bind fun included m₃ three includedOk => ?_
  have inherited : Bindings.All (r.MemberOk m₃) ⟨included.entries.map fun entry => (entry.1, .closure entry.2)⟩ := by
    rintro _ member
    obtain ⟨entry, isEntry, rfl⟩ := List.mem_map.mp member
    rintro _ ⟨⟩
    exact includedOk entry isEntry
  have upTo := (one.trans two).trans three
  refine (quiet_addMethods three.ok rfl (upTo.lockstep lockstep) _ inherited code).bind fun methods m₄ four methodsOk => ?_
  refine (quiet_newObject four.ok).bind fun id m₅ five _ => ends_pure five.ok ?_
  have whole := (upTo.trans four).trans five
  have extended' : ∀ c, base = some c → r.ClassOk m₅ c := fun c same => (extended c same).mono whole.grows
  have later := ((two.trans three).trans four).trans five
  refine ⟨fun name f => ?_, fun metaclass same name f => ?_⟩
  · exact methodOk_of_findMethod? (c := ⟨id, decl.name.lexeme, base, some _, methods⟩)
      (methodsOk.imp fun method fine => fine.mono five.grows) extended'
  · obtain rfl := Option.some.inj same
    exact methodOk_of_findMethod? (ownOk.imp fun method fine => fine.mono later.grows) extended'

theorem enterSubclass_spec (lockstep : r.Lockstep m σ m.scope) {base : Option Class}
    (extended : ∀ c, base = some c → r.ClassOk m c) :
    ∃ m₁, enterSubclass base m = .ok () m₁ ∧ m.Grows m₁ ∧ r.MachineOk m₁ ∧
      r.Lockstep m₁ (baseLevels base.isSome σ) m₁.scope := by
  cases base with
  | none => exact ⟨m, rfl, .of_frames rfl, ok, lockstep⟩
  | some c =>
    have value : r.ValueOk m (.classObject c) := extended c rfl
    have pushed := ok.push (Bindings.all_empty.put superName value)
    have grows := m.grows_push (Bindings.empty.put superName (.classObject c))
    have around := frameOf_keyword (r := r) (m := m) (.inr rfl) (.classObject c) lockstep.below
    have both : r.Lockstep { m with frames := m.frames.push (Bindings.empty.put superName (.classObject c)) }
      (.scope superRegion :: σ) (m.frames.size :: m.scope) := ⟨around, lockstep.mono grows⟩
    exact ⟨_, rfl, ⟨grows.size, grows.bound⟩, pushed.rescope (m.frames.size :: m.scope), both.of_frames rfl⟩

end

/-! ### What the lookups of a program find -/

/-- A name that is mentioned is declared by a scope that has its frame. -/
theorem mention_found (lockstep : r.Lockstep m σ chain) (place : (σ, mention) ∈ r.mentions) {d : Nat}
    (kept : mention.depth = some d) :
    ∃ e region id, Displaced σ chain mention.name.lexeme d e id ∧ (entered σ)[e]? = some region ∧
      region.names.contains mention.name.lexeme = true ∧ r.FrameOf m region id (chain.drop (e + 1)) := by
  obtain ⟨e, found, shift⟩ := (r.settled _ place).entered kept
  obtain ⟨isSet, region, there, declared⟩ := Scope.declares_of_depth found
  obtain ⟨id, inSight, frame⟩ := lockstep.frameOf there
  refine ⟨e, region, id, .of_nodup found shift inSight lockstep.nodup, there, ?_, frame⟩
  simp [Bindings.contains, declared]

/-- A name that is read is bound in the frame of the nearest scope that declares it. -/
theorem read_found (lockstep : r.Lockstep m σ chain) (place : (σ, mention) ∈ r.mentions)
    (isRead : mention.lookup = .read mention.name mention.depth) {d : Nat} (kept : mention.depth = some d) :
    ∃ e id, Displaced σ chain mention.name.lexeme d e id ∧ (m.frame id).contains mention.name.lexeme = true := by
  have settled := r.settled _ place
  obtain ⟨e, found, rfl⟩ := settled.entered kept
  have lookup := settled.lookup (settled.isUse kept)
  rw [isRead] at lookup
  obtain ⟨id, inSight, bound⟩ := lockstep.contains (Scope.declares_counted.mp (lookup.2 _ kept))
  exact ⟨e, id, .of_nodup found rfl inSight lockstep.nodup, bound⟩

/-- A use of `super` finds the class that is extended in the nearest scope with `super`, and the object in the scope
right inside it. -/
theorem super_found (lockstep : r.Lockstep m σ chain) {keyword : Token}
    (place : (σ, ⟨.super, keyword, depth, false⟩) ∈ r.mentions) :
    ∃ d e base object, depth = some (d + 1) ∧ Displaced σ chain keyword.lexeme (d + 1) (e + 1) base ∧
      (m.frame base).contains superName = true ∧ chain[e]? = some object ∧
      (m.frame object).contains thisName = true := by
  have settled := r.settled _ place
  obtain ⟨d, rfl, extended, object⟩ := settled.lookup rfl
  obtain ⟨e, found, next⟩ := settled.entered rfl
  rw [next] at extended
  have declared := Scope.declares_counted.mp extended
  cases e with
  | zero => simp [surplus] at next
  | succ e =>
    have inside : e < σ.length := by
      obtain ⟨region, there, -⟩ := declared
      have below := (List.getElem?_eq_some_iff.mp there).1
      simp only [entered, List.length_map] at below
      omega
    obtain ⟨base, here, bound⟩ := lockstep.contains declared
    obtain ⟨inner, here', bound'⟩ := lockstep.contains (Scope.declares_inner inside next object)
    exact ⟨d, e, base, inner, rfl, .of_nodup found next here lockstep.nodup, bound, here', bound'⟩

theorem mention_there (lockstep : r.Lockstep m σ chain) (place : (σ, mention) ∈ r.mentions) (isExact : r.exact = true)
    {d : Nat} (kept : mention.depth = some d) : ∃ id, chain[d]? = some id := by
  obtain ⟨e, -, id, displaced, -⟩ := mention_found lockstep place kept
  rw [displaced.eq_of_straight (r.straight isExact _ place) kept]
  exact ⟨id, displaced.here⟩

theorem ofFunction_of_mem (mentions : functionsMentions σ decls ⊆ r.mentions)
    (functions : FunDecl.allFunctions decls ⊆ r.functions) (parsed : FunDecl.AllParsed r.source decls)
    {decl : FunDecl} (member : decl ∈ decls) : r.OfFunction σ decl := by
  induction decls with
  | nil => exact absurd member List.not_mem_nil
  | cons _ _ ih =>
    simp only [functionsMentions, List.append_subset] at mentions
    simp only [FunDecl.allFunctions, List.append_subset] at functions
    rcases List.mem_cons.mp member with rfl | member
    · cases decl
      simp only [FunDecl.functions, List.cons_subset] at functions
      exact ⟨functions.1.1, mentions.1, functions.1.2, parsed.1.2.2⟩
    · exact ih mentions.2 functions.2 parsed.2 member

section
variable (ok : r.MachineOk m)
include ok

theorem quiet_readSuperclass {superclass : Option NameRef}
    (there : r.exact = true → ∀ ref, superclass = some ref → ∀ d, ref.depth = some d → ∃ id, m.scope[d]? = some id) :
    r.Quiet m (readSuperclass superclass) fun base m' =>
      base.isSome = superclass.isSome ∧ ∀ c, base = some c → r.ClassOk m' c := by
  cases superclass with
  | none => exact ends_pure ok ⟨rfl, nofun⟩
  | some ref =>
    refine (quiet_readName ok fun isExact => there isExact ref rfl).bind fun value m₁ follows fine => ?_
    cases value with
    | classObject =>
      refine ends_pure follows.ok ⟨rfl, ?_⟩
      rintro _ ⟨⟩
      exact fine
    | _ => exact quiet_crash follows.ok rfl

theorem quiet_declareClass {decl : ClassDecl} (code : r.OfStmt σ (.classDef decl)) (lockstep : r.Lockstep m σ m.scope) :
    r.Quiet m (declareClass decl) fun _ m' => Innermost m' decl.name.lexeme := by
  obtain ⟨place, mentions, functions, parsed⟩ := code
  cases decl with
  | mk name superclass methods classMethods traits =>
  simp only [stmtMentions, List.append_subset] at mentions
  obtain ⟨⟨⟨base, -⟩, ofInstances⟩, ofClass⟩ := mentions
  simp only [Stmt.functions, List.append_subset] at functions
  obtain ⟨-, global, methodsParsed, ownParsed⟩ := parsed
  have there : r.exact = true → ∀ ref, superclass = some ref → ∀ d, ref.depth = some d →
      ∃ id, m.scope[d]? = some id := by
    rintro isExact ref rfl d kept
    have isPlace : (σ, refMention false ref) ∈ r.mentions := base (by simp [placed])
    exact mention_there lockstep isPlace isExact kept
  refine (quiet_readSuperclass ok there).bind fun base m₁ one read => ?_
  obtain ⟨same, extended⟩ := read
  have nil : ∀ m', m₁.Grows m' → m'.scope = m₁.scope → Innermost m' name.lexeme → r.ValueOk m' .nil :=
    fun _ _ _ _ => trivial
  refine (quiet_define one.ok (one.lockstep lockstep) name.lexeme nil).bind fun _ m₂ two bound => ?_
  have inStep := (one.trans two).declaring bound lockstep place
  have extended₂ : ∀ c, base = some c → r.ClassOk m₂ c := fun c isBase => (extended c isBase).mono two.grows
  obtain ⟨m₃, entered, grows, ok₃, inStep₃⟩ := enterSubclass_spec two.ok inStep extended₂
  have code : ∀ method ∈ methods, r.OfFunction
      (.scope thisRegion :: baseLevels base.isSome (declaringIn name.lexeme true σ)) method := fun method member => by
    rw [same]
    exact ofFunction_of_mem ofInstances functions.1 methodsParsed member
  have ownCode : ∀ method ∈ classMethods, r.OfFunction
      (.own :: baseLevels base.isSome (declaringIn name.lexeme true σ)) method := fun method member => by
    rw [same]
    exact ofFunction_of_mem ofClass functions.2 ownParsed member
  have made : r.Quiet m₃ (makeClass ⟨name, superclass, methods, classMethods, traits⟩ base) fun c m' =>
      r.ClassOk m' c :=
    quiet_makeClass ok₃ inStep₃ global code ownCode fun c isBase => (extended₂ c isBase).mono grows
  refine quiet_restoring entered grows made fun c m₄ follows isOk => ?_
  have value : r.ValueOk m₄ (.classObject c) := isOk
  refine (quiet_assignNamed follows.ok m₂.scope name (value.of_frames rfl)).imp fun _ m₅ last _ => ?_
  exact bound.mono (follows.trans last)

theorem quiet_declareTrait {decl : TraitDecl} (code : r.OfStmt σ (.traitDef decl)) (lockstep : r.Lockstep m σ m.scope) :
    r.Quiet m (declareTrait decl) fun _ m' => Innermost m' decl.name.lexeme := by
  obtain ⟨place, mentions, functions, parsed⟩ := code
  cases decl with
  | mk name traits methods =>
  simp only [stmtMentions, List.append_subset] at mentions
  obtain ⟨refs, own⟩ := mentions
  have nil : ∀ m', m.Grows m' → m'.scope = m.scope → Innermost m' name.lexeme → r.ValueOk m' .nil :=
    fun _ _ _ _ => trivial
  refine (quiet_define ok lockstep name.lexeme nil).bind fun _ m₁ one bound => ?_
  have inStep := one.declaring bound lockstep place
  have there : r.exact = true → ∀ ref ∈ traits, ∀ d, ref.depth = some d → ∃ id, m₁.scope[d]? = some id := by
    intro isExact ref member d kept
    have isPlace : (declaringIn name.lexeme true σ, refMention false ref) ∈ r.mentions :=
      refs (List.mem_map_of_mem (List.mem_map_of_mem member))
    exact mention_there inStep isPlace isExact kept
  refine (quiet_includeTraits one.ok there Bindings.all_empty).bind fun included m₂ two includedOk => ?_
  have code : ∀ method ∈ methods, r.OfFunction (.scope thisRegion :: declaringIn name.lexeme true σ) method :=
    fun method member => ofFunction_of_mem own functions parsed.2 member
  refine (quiet_addTraitMethods two.ok (two.lockstep inStep) includedOk code).bind fun all m₃ three allOk => ?_
  refine (quiet_freshId three.ok).bind fun id m₄ four _ => ?_
  have value : r.ValueOk m₄ (.trait ⟨id, name, all⟩) := allOk.imp fun f fine => fine.mono four.grows
  have whole := (two.trans three).trans four
  exact (quiet_assignNamed four.ok m₄.scope name value).imp fun _ m₅ last _ => bound.mono (whole.trans last)

end

end LoxLang.Run
