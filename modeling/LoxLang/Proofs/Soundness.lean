import LoxLang.Proofs.Derivation

/-!
What the readers read is in the grammar. Every tree that a reader returns is derived from tokens that it was given;
when it has no complaint, it is derived from exactly the tokens that were taken. Both statements are proved at once:
`clean` stands for the assumption that there is no complaint.
-/

namespace LoxLang.Grammar

variable {ts : List Token} {keyword : Token}

variable {α β : Type} {clean : Prop} {f : α → Reader β} {x : Reader α}

theorem andThen {s s' : State} {a : α} (h : x s = .ok a s') :
    (x >>= f) s = f a s' := by
  simp only [Bind.bind, EStateM.bind, h]

theorem stopped {s s' : State} {stop : Stop} (h : x s = .error stop s') :
    (x >>= f) s = .error stop s' := by
  simp only [Bind.bind, EStateM.bind, h]

variable {kinds : List TokenKind}

theorem takeAny?_of_mem {t : Token} (member : t.kind ∈ kinds) (rest : List Token)
    (cs : List Complaint) : takeAny? kinds ⟨t :: rest, cs⟩ = .ok (some t) ⟨rest, cs⟩ := by
  simp only [takeAny?, member, if_true]

theorem takeAny?_of_not_mem {t : Token} (other : t.kind ∉ kinds) (rest : List Token)
    (cs : List Complaint) : takeAny? kinds ⟨t :: rest, cs⟩ = .ok none ⟨t :: rest, cs⟩ := by
  simp only [takeAny?, other, if_false]

/-- What is known after a reader: the tokens before it, those its value is derived from, the value, and the tokens
left. -/
abbrev Post (α : Type) := List Token → List Token → α → List Token → Prop

/-- What came of a reader at a state. Complaints are only added and tokens only taken from the front; it stops at an
error only with a complaint; and its value satisfies the postcondition, unless `clean` holds and there was a complaint. -/
def Outcome (clean : Prop) (s : State) (post : List Token → α → List Token → Prop) :
    EStateM.Result Stop State α → Prop
  | .ok value s' => ∃ more, s'.complaints = s.complaints ++ more ∧ s'.rest <:+ s.rest ∧
      ((clean → more = []) → ∃ ts, ts ⊆ s.rest ∧ (clean → s.rest = ts ++ s'.rest) ∧ post ts value s'.rest)
  | .error stop s' => ∃ more, s'.complaints = s.complaints ++ more ∧ s'.rest <:+ s.rest ∧ (stop ≠ .noTokens → more ≠ [])

/-- The reader comes to such an outcome at every state. -/
def Yields (clean : Prop) (r : Reader α) (post : Post α) : Prop := ∀ s, Outcome clean s (post s.rest) (r s)

/-- The numbers of arguments and parameters without a complaint. -/
def Fits (clean : Prop) (count : Nat) : Prop := clean → count ≤ maxArguments

section

variable {s : State} {P Q : List Token → α → List Token → Prop} {result : EStateM.Result Stop State α}

/-- Without the assumption that there is no complaint, some of the tokens can be left out. -/
theorem Outcome.select (h : Outcome clean s P result)
    (weaker : ∀ ts a after, P ts a after → ∃ us, us ⊆ ts ∧ (clean → us = ts) ∧ Q us a after) :
    Outcome clean s Q result := by
  cases result with
  | ok =>
    obtain ⟨more, made, left, reads⟩ := h
    refine ⟨more, made, left, fun quiet => ?_⟩
    obtain ⟨ts, sub, whole, post⟩ := reads quiet
    obtain ⟨us, fewer, same, post⟩ := weaker _ _ _ post
    exact ⟨us, List.Subset.trans fewer sub, fun h => by rw [same h]; exact whole h, post⟩
  | error => exact h

theorem Outcome.imp (h : Outcome clean s P result) (weaker : ∀ ts a after, P ts a after → Q ts a after) :
    Outcome clean s Q result :=
  h.select fun ts a after post => ⟨ts, fun _ => id, fun _ => rfl, weaker ts a after post⟩

/-- What comes of going on behind a token comes of going on from the token. -/
theorem Outcome.taken {t : Token} {rest : List Token} {cs : List Complaint}
    (h : Outcome clean ⟨rest, cs⟩ (fun ts => Q (t :: ts)) result) :
    Outcome clean ⟨t :: rest, cs⟩ Q result := by
  cases result with
  | ok =>
    obtain ⟨more, made, left, reads⟩ := h
    refine ⟨more, made, left.trans (List.suffix_cons t rest), fun quiet => ?_⟩
    obtain ⟨ts, sub, whole, post⟩ := reads quiet
    exact ⟨t :: ts, List.cons_subset_cons t sub, fun h => congrArg (t :: ·) (whole h), post⟩
  | error =>
    obtain ⟨more, made, left, stopped⟩ := h
    exact ⟨more, made, left.trans (List.suffix_cons t rest), stopped⟩

theorem Outcome.noTokens : Outcome clean s Q (.error .noTokens s) :=
  ⟨[], by simp, List.suffix_rfl, fun h => absurd rfl h⟩

end

namespace Yields

variable {P Q : Post β}

theorem select {r : Reader β} (h : Yields clean r fun before ts a after =>
    ∃ us, us ⊆ ts ∧ (clean → us = ts) ∧ Q before us a after) : Yields clean r Q :=
  fun s => (h s).select fun _ _ _ post => post

theorem imp {r : Reader β} (h : Yields clean r P)
    (weaker : ∀ before ts a after, P before ts a after → Q before ts a after) : Yields clean r Q :=
  fun s => (h s).imp (weaker s.rest)

theorem bind {P : Post α} (first : Yields clean x P)
    (second : ∀ a, Yields clean (f a) fun mid vs b after =>
      ∀ before us, P before us a mid → Q before (us ++ vs) b after) : Yields clean (x >>= f) Q := by
  intro s
  have one := first s
  cases h : x s with
  | error =>
    rw [h] at one
    rw [stopped h]
    exact one
  | ok a s1 =>
    rw [h] at one
    rw [andThen h]
    obtain ⟨more1, made1, left1, reads1⟩ := one
    have two := second a s1
    cases h2 : f a s1 with
    | ok =>
      rw [h2] at two
      obtain ⟨more2, made2, left2, reads2⟩ := two
      refine ⟨more1 ++ more2, by rw [made2, made1, List.append_assoc], left2.trans left1, fun quiet => ?_⟩
      obtain ⟨us, sub1, whole1, post1⟩ := reads1 fun h => (List.append_eq_nil_iff.mp (quiet h)).1
      obtain ⟨vs, sub2, whole2, post2⟩ := reads2 fun h => (List.append_eq_nil_iff.mp (quiet h)).2
      refine ⟨us ++ vs, ?_, fun h => ?_, post2 _ _ post1⟩
      · exact List.append_subset.mpr ⟨sub1, List.Subset.trans sub2 left1.subset⟩
      · rw [whole1 h, whole2 h, List.append_assoc]
    | error =>
      rw [h2] at two
      obtain ⟨more2, made2, left2, stopped⟩ := two
      refine ⟨more1 ++ more2, by rw [made2, made1, List.append_assoc], left2.trans left1, fun h empty => ?_⟩
      exact stopped h (List.append_eq_nil_iff.mp empty).2

theorem result {b : β} (post : ∀ before, Q before [] b before) : Yields clean (pure b) Q :=
  fun _ => ⟨[], by simp, List.suffix_rfl, fun _ => ⟨[], by simp, by simp, post _⟩⟩

theorem pureBind {a : α} (next : Yields clean (f a) Q) : Yields clean (pure a >>= f) Q := by
  rwa [pure_bind]

theorem ite {p : Prop} [Decidable p] {x y : Reader β} (yes : p → Yields clean x Q) (no : ¬ p → Yields clean y Q) :
    Yields clean (if p then x else y) Q := by
  split
  · exact yes ‹_›
  · exact no ‹_›

theorem noTokens (Q : Post β) : Yields clean noTokens Q := fun _ => .noTokens

theorem fail (error : SyntaxError) (token : Token) : Yields clean (fail error token) Q :=
  fun _ => ⟨_, rfl, List.suffix_rfl, fun _ => by simp⟩

theorem peek {f : Token → Reader β} (next : ∀ t, Yields clean (f t) Q) : Yields clean (peek >>= f) Q := by
  rintro ⟨rest, complaints⟩
  cases rest with
  | nil => exact .noTokens
  | cons t rest => exact next t ⟨t :: rest, complaints⟩

variable {kind : TokenKind}

/-- What a reader that looks at the next token finds out about it. -/
theorem looking {f : Bool → Reader β} (next : ∀ found, Yields clean (f found) fun before ts b after =>
      (∃ t more, before = t :: more ∧ decide (t.kind = kind) = found) → Q before ts b after) :
    Yields clean (nextIs kind >>= f) Q := by
  rintro ⟨rest, complaints⟩
  cases rest with
  | nil => exact .noTokens
  | cons t rest => exact (next _ ⟨t :: rest, complaints⟩).imp fun _ _ _ post => post ⟨t, rest, rfl, rfl⟩

theorem nextIs {f : Bool → Reader β} (next : ∀ found, Yields clean (f found) Q) :
    Yields clean (nextIs kind >>= f) Q := looking fun found => (next found).imp fun _ _ _ _ post _ => post

/-- What a reader that takes a token of some kinds finds out about the next token if it takes none. -/
theorem taking {f : Option Token → Reader β}
    (none : Yields clean (f none) fun before ts b after =>
      (∀ t more, before = t :: more → t.kind ∉ kinds) → Q before ts b after)
    (some : ∀ t, t.kind ∈ kinds → Yields clean (f (some t)) fun mid ts => Q (t :: mid) (t :: ts)) :
    Yields clean (takeAny? kinds >>= f) Q := by
  rintro ⟨rest, complaints⟩
  cases rest with
  | nil => exact .noTokens
  | cons t rest =>
    by_cases member : t.kind ∈ kinds
    · rw [andThen (takeAny?_of_mem member ..)]
      exact (some t member ⟨rest, complaints⟩).taken
    · rw [andThen (takeAny?_of_not_mem member ..)]
      refine (none ⟨t :: rest, complaints⟩).imp fun _ _ _ post => post ?_
      rintro _ _ ⟨⟩
      exact member

theorem takeAny? {f : Option Token → Reader β} (none : Yields clean (f none) Q)
    (some : ∀ t, t.kind ∈ kinds → Yields clean (f (some t)) fun mid ts => Q (t :: mid) (t :: ts)) :
    Yields clean (takeAny? kinds >>= f) Q := taking (none.imp fun _ _ _ _ post _ => post) some

theorem take? {f : Option Token → Reader β} (none : Yields clean (f none) Q)
    (some : ∀ t, t.kind = kind → Yields clean (f (some t)) fun mid ts => Q (t :: mid) (t :: ts)) :
    Yields clean (take? kind >>= f) Q := takeAny? none fun t member => some t (by simpa using member)

theorem expect {what : Missing} {f : Token → Reader β}
    (next : ∀ t, t.kind = kind → Yields clean (f t) fun mid ts => Q (t :: mid) (t :: ts)) :
    Yields clean (expect kind what >>= f) Q := by
  rintro ⟨rest, complaints⟩
  cases rest with
  | nil => exact .noTokens
  | cons t rest =>
    by_cases is : t.kind = kind
    · have read : Grammar.expect kind what ⟨t :: rest, complaints⟩ = .ok t ⟨rest, complaints⟩ :=
        andThen (takeAny?_of_mem (by simp [is]) ..)
      rw [andThen read]
      exact (next t is ⟨rest, complaints⟩).taken
    · have failed : Grammar.expect kind what ⟨t :: rest, complaints⟩ = _ :=
        andThen (takeAny?_of_not_mem (by simpa using is) ..)
      rw [stopped failed]
      exact ⟨_, rfl, List.suffix_rfl, fun _ => by simp⟩

end Yields

/-- What is known after a complaint. -/
def Complained (clean : Prop) : Post Unit := fun before ts _ after => ts = [] ∧ after = before ∧ ¬ clean

theorem yields_complaint (complaint : Complaint) :
    Yields clean (modify fun s => { s with complaints := s.complaints ++ [complaint] }) (Complained clean) := by
  intro s
  exact ⟨_, rfl, List.suffix_rfl, fun quiet => ⟨[], by simp, by simp, rfl, rfl, fun h => by simpa using quiet h⟩⟩

theorem Yields.limited {r : Reader α} {Q : Post α} {beyond : Prop} [Decidable beyond] {warn : Token → Reader Unit}
    (warned : ∀ t, Yields clean (warn t) (Complained clean))
    (h : Yields clean r fun before ts a after => (clean → ¬ beyond) → Q before ts a after) :
    Yields clean (if beyond then (do let t ← Grammar.peek; warn t; r) else r) Q := by
  refine .ite (fun exceeded => .peek fun t => (warned t).bind fun _ => h.imp ?_) fun within => h.imp ?_
  · rintro _ _ _ _ post _ _ ⟨rfl, rfl, unclean⟩
    exact post fun h => absurd h unclean
  · exact fun _ _ _ _ post => post fun _ => within

/-! ### Expressions -/

theorem Derives.of_var {fits : Nat → Prop} {layer : Layer} {name : Token} {depth : Option Nat}
    (h : Derives fits (.expression layer (.var name depth)) ts) :
    ts = [name] ∧ name.kind = .identifier ∧ depth = none := by
  generalize same : Phrase.expression layer (.var name depth) = p at h
  induction h generalizing layer with
  | inner _ _ ih => cases same; exact ih rfl
  | @joined outer =>
    injection same with _ same
    cases outer <;> cases same
  | name isName => cases same; exact ⟨rfl, isName, rfl⟩
  | _ => cases same

theorem Derives.of_get {fits : Nat → Prop} {layer : Layer} {object : Expr} {name : Token}
    (h : Derives fits (.expression layer (.get object name)) ts) :
    ∃ os dot, ts = os ++ [dot, name] ∧ dot.kind = .dot ∧ name.kind = .identifier ∧
      Derives fits (.expression .call object) os := by
  generalize same : Phrase.expression layer (.get object name) = p at h
  induction h generalizing layer with
  | inner _ _ ih => cases same; exact ih rfl
  | @joined outer =>
    injection same with _ same
    cases outer <;> cases same
  | get isDot isName target => cases same; exact ⟨_, _, rfl, isDot, isName, target⟩
  | _ => cases same

/-- The value is written with the tokens. -/
abbrev Derived (clean : Prop) (phrase : α → Phrase) : Post α := fun _ ts a _ => Derives (Fits clean) (phrase a) ts

theorem yields_leftGrouped {layer inner : Layer} (next : layer.inner? = some inner) {operand : Reader Expr}
    (yields : Yields clean operand (Derived clean (.expression inner))) (n : Nat) (first : Expr) :
    Yields clean (leftGrouped layer.join layer.operators operand n first) fun _ ts e _ =>
      ∀ fs, Derives (Fits clean) (.expression layer first) fs → Derives (Fits clean) (.expression layer e) (fs ++ ts) := by
  induction n generalizing first with
  | zero => exact .noTokens _
  | succ n ih =>
    refine .takeAny? (.result fun _ fs derived => by simpa using derived) fun op isOp =>
      yields.bind fun right => (ih (layer.join first op right)).imp ?_
    intro _ us e _ more _ rs derived fs firstDerived
    simpa using more _ (.joined next isOp firstDerived derived)

theorem yields_layer (layer : Layer) {inner : Layer} (next : layer.inner? = some inner) {operand : Reader Expr}
    (yields : Yields clean operand (Derived clean (.expression inner))) (n : Nat) :
    Yields clean (Grammar.layer layer.join layer.operators n operand) (Derived clean (.expression layer)) :=
  yields.bind fun first => (yields_leftGrouped next yields n first).imp fun _ _ _ _ more _ us derived =>
    more us (.inner next derived)

/-- Only a name or a property takes the value; with any other target the reading is not clean. -/
theorem yields_assignTo (target : Expr) (equals : Token) (value : Expr) :
    Yields clean (assignTo target equals value) fun _ ts e _ => ts = [] ∧
      ((∃ name depth, target = .var name depth ∧ e = .assign name value none) ∨
        (∃ object name, target = .get object name ∧ e = .set object name value) ∨ (¬ clean ∧ e = target)) := by
  unfold assignTo
  split
  · exact .result fun _ => ⟨rfl, .inl ⟨_, _, rfl, rfl⟩⟩
  · exact .result fun _ => ⟨rfl, .inr (.inl ⟨_, _, rfl, rfl⟩)⟩
  · refine (yields_complaint _).bind fun _ => .result ?_
    rintro _ _ _ ⟨rfl, -, unclean⟩
    exact ⟨rfl, .inr (.inr ⟨unclean, rfl⟩)⟩

section
variable {nested : Reader Expr} (nestedYields : Yields clean nested (Derived clean (.expression .conditional)))
include nestedYields

/-- The count of arguments stays below the limit as long as there is no complaint. -/
theorem yields_moreArguments (n count : Nat) :
    Yields clean (moreArguments nested n count) fun _ ts values _ =>
      (clean → count ≤ maxArguments → count + values.length ≤ maxArguments) ∧
      ∀ e fs, Derives (Fits clean) (.expression .conditional e) fs →
        Derives (Fits clean) (.arguments (e :: values)) (fs ++ ts) := by
  induction n generalizing count with
  | zero => exact .noTokens _
  | succ _ ih =>
    refine .take? (.result fun _ => ?_) fun comma isComma => .limited (fun t => yields_complaint _)
      (nestedYields.bind fun argument => (ih (count + 1)).bind fun rest => .result ?_)
    · exact ⟨fun _ h => by simpa using h, fun e fs derived => by simpa using Derives.oneArgument derived⟩
    · rintro _ _ us ⟨limit, more⟩ _ ns derived below
      refine ⟨fun h _ => ?_, fun e fs first => ?_⟩
      · have := below h
        have := limit h (by omega)
        simp only [List.length_cons]
        omega
      · simpa using Derives.moreArguments isComma first (more argument ns derived)

theorem yields_arguments (n : Nat) : Yields clean (arguments nested n) fun _ ts values _ =>
    Fits clean values.length ∧ Derives (Fits clean) (.arguments values) ts := by
  refine .nextIs fun found => .ite (fun _ => .result fun _ => ⟨fun _ => by simp, .noArguments⟩) fun _ =>
    nestedYields.bind fun first => (yields_moreArguments nestedYields n 1).bind fun rest => .result ?_
  rintro _ _ us ⟨limit, more⟩ _ fs derived
  refine ⟨fun h => ?_, by simpa using more first fs derived⟩
  have := limit h (by decide)
  simp only [List.length_cons]
  omega

theorem yields_suffixes (n : Nat) (object : Expr) : Yields clean (suffixes nested n object) fun _ ts e _ =>
    ∀ os, Derives (Fits clean) (.expression .call object) os →
      Derives (Fits clean) (.expression .call e) (os ++ ts) := by
  induction n generalizing object with
  | zero => exact .noTokens _
  | succ n ih =>
    refine .take? (.take? (.result fun _ os derived => by simpa using derived) fun dot isDot =>
      .expect fun name isName => (ih (.get object name)).imp ?_) fun left isLeft =>
        (yields_arguments nestedYields n).bind fun values => .expect fun paren isRight =>
          (ih (.call object paren values)).imp ?_
    · intro _ us e _ more os derived
      simpa using more _ (.get isDot isName derived)
    · rintro _ us e _ more _ vs ⟨fit, list⟩ os derived
      simpa using more _ (.call isLeft isRight fit derived list)

theorem yields_primary : Yields clean (primary nested) (Derived clean (.expression .primary)) := by
  refine .takeAny? (.peek fun t => .fail _ t) fun token member => ?_
  dsimp only
  split
  case h_6 is => exact .expect fun dot isDot => .expect fun method isName => .result fun _ => .super is isDot isName
  case h_7 is => exact .result fun _ => .this is
  case h_8 is => exact .result fun _ => .name is
  case h_9 =>
    -- Of the kinds that were asked for, only the parenthesis is left.
    have isLeft : token.kind = .leftParen := by simp_all [primaryKinds]
    refine nestedYields.bind fun inner => .expect fun right isRight => .result fun _ _ ts derived => ?_
    exact .group isLeft isRight derived
  all_goals
    rename_i is
    exact .result fun _ => .literal (by simp [literalOf?, is])

theorem yields_unary (n : Nat) : Yields clean (unary nested n) (Derived clean (.expression .unary)) := by
  induction n with
  | zero => exact .noTokens _
  | succ n ih =>
    refine .takeAny? ((yields_primary nestedYields).bind fun first =>
      (yields_suffixes nestedYields (n + 1) first).imp ?_) fun op isSign => ih.bind fun operand => .result ?_
    · exact fun _ us e _ more _ fs derived => .inner rfl (more fs (.inner rfl derived))
    · intro _ _ ts derived
      simpa using Derives.signed isSign derived

theorem yields_disjunction (n : Nat) :
    Yields clean (disjunction nested n) (Derived clean (.expression .disjunction)) := by
  have factor := yields_layer .factor rfl (yields_unary nestedYields n) n
  have term := yields_layer .term rfl factor n
  have comparison := yields_layer .comparison rfl term n
  have equality := yields_layer .equality rfl comparison n
  have conjunction := yields_layer .conjunction rfl equality n
  exact yields_layer .disjunction rfl conjunction n

theorem yields_assignment (n : Nat) : Yields clean (assignment nested n) (Derived clean (.expression .assignment)) := by
  induction n with
  | zero => exact .noTokens _
  | succ n ih =>
    refine .select ((yields_disjunction nestedYields (n + 1)).bind fun target => .take? (.result ?_)
      fun equals isEquals => ih.bind fun value => (yields_assignTo target equals value).imp ?_)
    · exact fun _ _ ts derived => ⟨ts, by simp, fun _ => by simp, .inner rfl derived⟩
    · rintro _ _ _ _ ⟨rfl, cases⟩ _ vs source _ ts derived
      rcases cases with ⟨name, depth, rfl, rfl⟩ | ⟨object, name, rfl, rfl⟩ | ⟨unclean, rfl⟩
      · obtain ⟨rfl, isName, -⟩ := derived.of_var
        refine ⟨_, fun _ => id, fun _ => rfl, ?_⟩
        simpa using Derives.assign isName isEquals source
      · obtain ⟨os, dot, rfl, isDot, isName, object⟩ := derived.of_get
        refine ⟨_, fun _ => id, fun _ => rfl, ?_⟩
        simpa using Derives.set isDot isName isEquals object source
      · exact ⟨ts, by simp, fun h => absurd h unclean, .inner rfl derived⟩

theorem yields_conditional (n : Nat) :
    Yields clean (conditional nested n) (Derived clean (.expression .conditional)) := by
  refine (yields_assignment nestedYields n).bind fun _ => .take? (.result fun _ _ cs test => ?_)
    fun mark isMark => nestedYields.bind fun _ => .expect fun colon isColon =>
      nestedYields.bind fun _ => .result fun _ _ es no _ ts yes _ cs test => ?_
  · simpa using Derives.inner rfl test
  · simpa using Derives.conditional isMark isColon test yes no

end

theorem yields_expression (n : Nat) : Yields clean (expression n) (Derived clean (.expression .conditional)) := by
  induction n with
  | zero => exact .noTokens _
  | succ n ih => exact yields_conditional ih (n + 1)

/-! ### Lists and names -/

/-- Values written one after another. -/
inductive Pieces (written : List Token → α → Prop) : List Token → List α → Prop where
  | nil : Pieces written [] []
  | cons {ts us : List Token} {a : α} {rest : List α} (first : written ts a) (others : Pieces written us rest) :
      Pieces written (ts ++ us) (a :: rest)

theorem yields_untilBrace {item : Reader α} {written : List Token → α → Prop}
    (yields : Yields clean item fun _ ts a _ => written ts a) (n : Nat) :
    Yields clean (untilBrace item n) fun _ ts items _ => Pieces written ts items := by
  induction n with
  | zero => exact .noTokens _
  | succ n ih =>
    refine .nextIs fun closed => .nextIs fun ended => .ite (fun _ => .result fun _ => .nil) fun _ =>
      yields.bind fun first => ih.bind fun rest => .result fun _ _ us others _ ts one => ?_
    simpa using Pieces.cons one others

theorem yields_commaSeparated {make : Token → α} {what : Missing} (n : Nat) :
    Yields clean (commaSeparated (do return make (← expect .identifier what)) n) fun _ ts items _ =>
      ∃ names, Names names ts ∧ items = names.map make := by
  induction n with
  | zero => exact .noTokens _
  | succ _ ih =>
    have item : Yields clean (do return make (← expect .identifier what)) fun _ ts a _ =>
        ∃ name, ts = [name] ∧ name.kind = .identifier ∧ a = make name :=
      .expect fun name isName => .result fun _ => ⟨name, rfl, isName, rfl⟩
    refine item.bind fun first => .take? (.result ?_) fun comma isComma => ih.bind fun rest => .result ?_
    · rintro _ _ _ ⟨name, rfl, isName, rfl⟩
      exact ⟨[name], .one isName, rfl⟩
    · rintro _ _ ts ⟨names, list, rfl⟩ _ _ ⟨name, rfl, isName, rfl⟩
      exact ⟨name :: names, by simpa using Names.more isName isComma list, rfl⟩

theorem yields_parameters (n count : Nat) : Yields clean (parameters n count) fun _ ts names _ =>
    Names names ts ∧ (clean → count + names.length ≤ maxArguments) := by
  induction n generalizing count with
  | zero => exact .noTokens _
  | succ _ ih =>
    refine .limited (fun t => yields_complaint _) (.expect fun name isName => .take? (.result fun _ below => ?_)
      fun comma isComma => (ih (count + 1)).bind fun rest => .result ?_)
    · refine ⟨.one isName, fun h => ?_⟩
      have := below h
      simp only [List.length_singleton]
      omega
    · rintro _ _ ts ⟨list, limit⟩ below
      refine ⟨by simpa using Names.more isName isComma list, fun h => ?_⟩
      have := limit h
      simp only [List.length_cons]
      omega

theorem yields_parameterList (kind : FunctionKind) (n : Nat) :
    Yields clean (parameterList kind n) fun _ ts params _ => Parameters (Fits clean) kind params ts := by
  refine .nextIs fun found => .ite (fun isMethod => .result fun _ => ?_) fun _ => .expect fun left isLeft =>
    .nextIs fun empty => .ite (fun _ => .pureBind (.expect fun right isRight => .result fun _ => .empty isLeft isRight))
      fun _ => (yields_parameters n 0).bind fun names => .expect fun right isRight => .result ?_
  · obtain rfl : kind = .method := by
      simp only [Bool.and_eq_true, decide_eq_true_eq] at isMethod
      exact isMethod.1
    exact .getter
  · rintro _ _ ts ⟨list, limit⟩
    exact .list isLeft isRight list fun h => by simpa using limit h

theorem yields_withClause (n : Nat) : Yields clean (withClause n) fun _ ts traits _ => Includes traits ts := by
  refine .take? (.result fun _ => .nothing) fun keyword isWith => (yields_commaSeparated n).imp ?_
  rintro _ _ _ _ ⟨names, list, rfl⟩
  exact .traits isWith list

theorem yields_superclassClause : Yields clean superclassClause fun _ ts base _ => Extends base ts :=
  .take? (.result fun _ => .nothing) fun _ isLess => .expect fun _ isName => .result fun _ => .base isLess isName

/-! ### Statements -/

/-- The statement is written with the tokens; if it is open, no `else` follows. -/
abbrev Stated (clean : Prop) : Post Stmt := fun _ ts s after =>
  ∃ isOpen, Derives (Fits clean) (.statement s isOpen) ts ∧
    (isOpen = true → ∀ t more, after = t :: more → t.kind ≠ .kwElse)

/-- The declaration is written with the tokens; one is dropped only with a complaint. -/
abbrev Declared (clean : Prop) (ts : List Token) : Option Stmt → Prop
  | some s => Derives (Fits clean) (.declaration s) ts
  | none => ¬ clean

theorem stated_of_closed {before after : List Token} {s : Stmt}
    (derived : Derives (Fits clean) (.statement s false) ts) :
    Stated clean before ts s after := ⟨false, derived, fun h => by simp at h⟩

theorem yields_varDeclaration (n : Nat) : Yields clean (varDeclaration n) (Derived clean .definition) :=
  .expect fun _ isName => .take? (.pureBind (.expect fun _ isEnd => .result fun _ => .unset isName isEnd))
    fun _ isEquals => (yields_expression n).bind fun _ => .expect fun _ isEnd =>
      .result fun _ _ _ derived => .valued isName isEquals isEnd derived

theorem yields_expressionStatement (n : Nat) : Yields clean (expressionStatement n) fun _ ts s _ =>
    ∃ e es semicolon, s = .expression e ∧ ts = es ++ [semicolon] ∧ semicolon.kind = .semicolon ∧
      Derives (Fits clean) (.expression .conditional e) es :=
  (yields_expression n).bind fun e => .expect fun semicolon isEnd => .result fun _ _ es derived =>
    ⟨e, es, semicolon, rfl, rfl, isEnd, derived⟩

theorem yields_unlessNext (kind : TokenKind) (n : Nat) :
    Yields clean (unlessNext kind n) (Derived clean .optional) := by
  refine .nextIs fun found => .ite (fun _ => .result fun _ => .absent) fun _ =>
    (yields_expression n).bind fun e => .result fun _ _ ts derived => ?_
  simpa using Derives.present derived

theorem yields_returnStatement (isReturn : keyword.kind = .kwReturn) (n : Nat) :
    Yields clean (returnStatement keyword n) fun before ts s after => Stated clean before (keyword :: ts) s after :=
  (yields_unlessNext .semicolon n).bind fun _ => .expect fun _ isEnd => .result fun _ _ _ derived =>
    stated_of_closed (.returned isReturn isEnd derived)

theorem yields_printStatement (isPrint : keyword.kind = .kwPrint) (n : Nat) :
    Yields clean (printStatement n) fun before ts s after => Stated clean before (keyword :: ts) s after :=
  (yields_expression n).bind fun _ => .expect fun _ isEnd => .result fun _ _ _ derived =>
    stated_of_closed (.print isPrint isEnd derived)

theorem yields_forInitializer (n : Nat) : Yields clean (forInitializer n) (Derived clean .initializer) := by
  refine .takeAny? ((yields_expressionStatement n).bind fun s => .result ?_) fun token member =>
    .ite (fun isEnd => .result fun _ => .noInitializer isEnd) fun other =>
      (yields_varDeclaration n).bind fun s => .result fun _ _ ts derived => ?_
  · rintro _ _ _ ⟨e, es, semicolon, rfl, rfl, isEnd, derived⟩
    simpa using Derives.firstValue isEnd derived
  · have isVar : token.kind = .kwVar := by simpa [other] using member
    simpa using Derives.newVariable isVar derived

theorem restart_suffix (last : Token) (ts : List Token) : restart last ts <:+ ts := by
  induction ts generalizing last with
  | nil => exact List.suffix_rfl
  | cons t rest ih =>
    rw [restart]
    split
    · exact List.suffix_rfl
    · exact (ih t).trans (List.suffix_cons t rest)

theorem yields_recover : Yields clean recover fun _ _ _ _ => True := by
  rintro ⟨rest, complaints⟩
  unfold recover
  cases rest with
  | nil => exact .noTokens
  | cons t rest =>
    by_cases last : t.kind = .endOfFile
    · simp only [last, if_true]
      exact ⟨[], by simp, List.suffix_rfl, fun _ => ⟨[], by simp, by simp, trivial⟩⟩
    · simp only [last, if_false]
      have shorter := (restart_suffix t rest).trans (List.suffix_cons t rest)
      cases kept : restart t rest with
      | nil => exact ⟨[], by simp, List.nil_suffix, fun h => absurd rfl h⟩
      | cons =>
        rw [kept] at shorter
        obtain ⟨ts, whole⟩ := shorter
        refine ⟨[], by simp, ⟨ts, whole⟩, fun _ => ⟨ts, ?_, fun _ => whole.symm, trivial⟩⟩
        exact fun x member => whole ▸ List.mem_append_left _ member

/-- What stopped with an error had a complaint, so dropping it is not clean. -/
theorem Yields.orRecover {r : Reader Stmt} (h : Yields clean r (Derived clean .declaration)) :
    Yields clean (Grammar.orRecover r) fun _ ts s _ => Declared clean ts s := by
  intro s
  have here := h s
  simp only [Grammar.orRecover, tryCatch, tryCatchThe, MonadExceptOf.tryCatch, EStateM.tryCatch, Functor.map,
    EStateM.map]
  cases ends : r s with
  | ok =>
    rw [ends] at here
    exact here
  | error stop s1 =>
    rw [ends] at here
    obtain ⟨more, made, left, stopped⟩ := here
    cases stop with
    | noTokens => exact ⟨more, made, left, stopped⟩
    | reported error =>
      have complained := stopped (by simp)
      have dropped : Yields False (do recover; return (none : Option Stmt)) fun _ _ found _ => found = none :=
        yields_recover.bind fun _ => .result fun _ _ _ _ => rfl
      have after := dropped s1
      dsimp only [EStateM.Backtrackable.restore, EStateM.nonBacktrackable, EStateM.dummyRestore]
      cases recovered : (do recover; return (none : Option Stmt)) s1 with
      | ok =>
        rw [recovered] at after
        obtain ⟨more', made', left', reads⟩ := after
        obtain ⟨-, -, -, rfl⟩ := reads nofun
        refine ⟨more ++ more', by rw [made', made, List.append_assoc], left'.trans left, fun quiet => ?_⟩
        have unclean : ¬ clean := fun h => complained (List.append_eq_nil_iff.mp (quiet h)).1
        exact ⟨[], by simp, fun h => absurd h unclean, unclean⟩
      | error =>
        rw [recovered] at after
        obtain ⟨more', made', left', -⟩ := after
        refine ⟨more ++ more', by rw [made', made, List.append_assoc], left'.trans left, fun _ => ?_⟩
        exact List.append_ne_nil_of_left_ne_nil complained more'

/-- The declarations that were read are written with what is left when the dropped ones are left out. -/
theorem declarations_of_pieces {items : List (Option Stmt)} (pieces : Pieces (Declared clean) ts items) :
    ∃ us, us ⊆ ts ∧ (clean → us = ts) ∧ Derives (Fits clean) (.declarations (items.filterMap id)) us := by
  induction pieces with
  | nil => exact ⟨[], by simp, fun _ => rfl, .noDeclarations⟩
  | @cons ts us first rest one _ ih =>
    obtain ⟨vs, fewer, same, derived⟩ := ih
    cases first with
    | some =>
      refine ⟨ts ++ vs, ?_, fun h => by rw [same h], .moreDeclarations one derived⟩
      exact List.append_subset.mpr ⟨by simp, List.Subset.trans fewer (by simp)⟩
    | none => exact ⟨vs, List.Subset.trans fewer (by simp), fun h => absurd h one, derived⟩

section
variable {decl : Reader (Option Stmt)} (declYields : Yields clean decl fun _ ts s _ => Declared clean ts s)
include declYields

theorem yields_block (n : Nat) : Yields clean (block decl n) fun _ ts body _ =>
    ∃ us right, ts = us ++ [right] ∧ right.kind = .rightBrace ∧ Derives (Fits clean) (.declarations body) us := by
  refine .select ((yields_untilBrace declYields n).bind fun items => .expect fun right isRight =>
    .result fun _ _ ts pieces => ?_)
  obtain ⟨us, fewer, same, derived⟩ := declarations_of_pieces pieces
  refine ⟨us ++ [right], ?_, fun h => by simp [same h], us, right, rfl, isRight, derived⟩
  exact List.append_subset.mpr ⟨List.Subset.trans fewer (by simp), by simp⟩

theorem yields_function (kind : FunctionKind) (n : Nat) :
    Yields clean (function kind decl n) (Derived clean (.function kind)) := by
  refine .expect fun name isName => (yields_parameterList kind n).bind fun params => .expect fun left isLeft =>
    (yields_block declYields n).bind fun body => .result ?_
  rintro _ _ _ ⟨ts, right, rfl, isRight, derived⟩ _ ps list
  simpa using Derives.function isName isLeft isRight list derived

/-- A method as a member of a class, marked by the keyword before it. -/
def MemberOf (clean : Prop) (ts : List Token) (member : Bool × FunDecl) : Prop :=
  ∀ rest us, Derives (Fits clean) (.members rest) us → Derives (Fits clean) (.members (member :: rest)) (ts ++ us)

theorem yields_classMember (n : Nat) :
    Yields clean (classMember decl n) fun _ ts member _ => MemberOf clean ts member := by
  have method := yields_function declYields .method n
  refine .take? (method.bind fun f => .result fun _ _ ts derived rest us others => ?_) fun keyword isClass =>
    method.bind fun f => .result fun _ _ ts derived rest us others => ?_
  · simpa using Derives.member derived others
  · simpa using Derives.ownMember isClass derived others

omit declYields in
theorem members_of_pieces {members : List (Bool × FunDecl)} (pieces : Pieces (MemberOf clean) ts members) :
    Derives (Fits clean) (.members members) ts := by
  induction pieces with
  | nil => exact .noMembers
  | cons first _ ih => exact first _ _ ih

omit declYields in
theorem methods_of_pieces {methods : List FunDecl}
    (pieces : Pieces (fun ts f => Derives (Fits clean) (.function .method f) ts) ts methods) :
    Derives (Fits clean) (.methods methods) ts := by
  induction pieces with
  | nil => exact .noMethods
  | cons first _ ih => exact .method first ih

theorem yields_classDeclaration (isClass : keyword.kind = .kwClass) (n : Nat) :
    Yields clean (classDeclaration decl n) fun _ ts c _ =>
      Derives (Fits clean) (.declaration (.classDef c)) (keyword :: ts) :=
  .expect fun _ isName => yields_superclassClause.bind fun _ => (yields_withClause n).bind fun _ =>
    .expect fun _ isLeft => (yields_untilBrace (yields_classMember declYields n) n).bind fun _ =>
      .expect fun _ isRight => .result fun _ _ _ pieces _ _ inclusion _ _ extension =>
        .classDef isClass isName isLeft isRight extension inclusion (members_of_pieces pieces)

theorem yields_traitDeclaration (isTrait : keyword.kind = .kwTrait) (n : Nat) :
    Yields clean (traitDeclaration decl n) fun _ ts t _ =>
      Derives (Fits clean) (.declaration (.traitDef t)) (keyword :: ts) :=
  .expect fun _ isName => (yields_withClause n).bind fun _ => .expect fun _ isLeft =>
    (yields_untilBrace (yields_function declYields .method n) n).bind fun _ => .expect fun _ isRight =>
      .result fun _ _ _ pieces _ _ inclusion =>
        .traitDef isTrait isName isLeft isRight inclusion (methods_of_pieces pieces)

end

section
variable {nested : Reader Stmt} (nestedYields : Yields clean nested (Stated clean))
include nestedYields

/-- The branch before an `else` that is taken is not open: it would have taken it. -/
theorem yields_ifStatement (isIf : keyword.kind = .kwIf) (n : Nat) :
    Yields clean (ifStatement nested n) fun before ts s after => Stated clean before (keyword :: ts) s after := by
  refine .expect fun left isLeft => (yields_expression n).bind fun _ => .expect fun right isRight =>
    nestedYields.bind fun _ => .taking (.result ?_) fun other isElse =>
      nestedYields.bind fun _ => .result ?_
  · rintro _ notElse _ ts ⟨isOpen, yes, -⟩ _ cs test
    refine ⟨true, by simpa using Derives.ifThen isIf isLeft isRight test yes, fun _ t more same => ?_⟩
    simpa using notElse t more same
  · rintro _ _ es ⟨isOpen', no, follows⟩ _ ts ⟨isOpen, yes, noElse⟩ _ cs test
    have isElse : other.kind = .kwElse := by simpa using isElse
    cases isOpen with
    | true => exact absurd isElse (noElse rfl _ _ rfl)
    | false => exact ⟨isOpen', by simpa using Derives.ifElse isIf isLeft isRight isElse test yes no, follows⟩

theorem yields_whileStatement (isWhile : keyword.kind = .kwWhile) (n : Nat) :
    Yields clean (whileStatement nested n) fun before ts s after => Stated clean before (keyword :: ts) s after := by
  refine .expect fun left isLeft => (yields_expression n).bind fun _ => .expect fun right isRight =>
    nestedYields.bind fun body => .result ?_
  rintro _ _ ts ⟨isOpen, derived, follows⟩ _ cs test
  exact ⟨isOpen, by simpa using Derives.while isWhile isLeft isRight test derived, follows⟩

theorem yields_forStatement (isFor : keyword.kind = .kwFor) (n : Nat) :
    Yields clean (forStatement nested n) fun before ts s after => Stated clean before (keyword :: ts) s after := by
  refine .expect fun left isLeft => (yields_forInitializer n).bind fun first =>
    (yields_unlessNext .semicolon n).bind fun condition => .expect fun semicolon isEnd =>
      (yields_unlessNext .rightParen n).bind fun increment => .expect fun right isRight =>
        nestedYields.bind fun body => .result ?_
  rintro _ _ ts ⟨isOpen, derived, follows⟩ _ is step _ cs test _ fs start
  exact ⟨isOpen, by simpa using Derives.for isFor isLeft isEnd isRight start test step derived, follows⟩

end

section
variable {nested : Reader Stmt} {decl : Reader (Option Stmt)} (nestedYields : Yields clean nested (Stated clean))
  (declYields : Yields clean decl fun _ ts s _ => Declared clean ts s)
include nestedYields declYields

theorem yields_statementWith (n : Nat) : Yields clean (statementWith nested decl n) (Stated clean) := by
  refine .takeAny? ((yields_expressionStatement n).imp ?_) fun token member => ?_
  · rintro _ _ _ _ ⟨e, es, semicolon, rfl, rfl, isEnd, derived⟩
    exact stated_of_closed (.evaluation isEnd derived)
  · dsimp only
    split
    · exact yields_ifStatement nestedYields ‹_› n
    · exact yields_forStatement nestedYields ‹_› n
    · exact yields_printStatement ‹_› n
    · exact yields_returnStatement ‹_› n
    · exact yields_whileStatement nestedYields ‹_› n
    · exact .expect fun semicolon isEnd => .result fun _ => stated_of_closed (.broken ‹_› isEnd)
    · -- Of the kinds that were asked for, only the brace is left.
      have isLeft : token.kind = .leftBrace := by simp_all [statementKinds]
      refine (yields_block declYields n).bind fun body => .result ?_
      rintro _ _ _ ⟨ts, right, rfl, isRight, derived⟩
      exact stated_of_closed (by simpa using Derives.block isLeft isRight derived)

theorem yields_declarationWith (n : Nat) :
    Yields clean (declarationWith nested decl n) (Derived clean .declaration) := by
  refine .takeAny? ((yields_statementWith nestedYields declYields n).imp ?_) fun token member => ?_
  · rintro _ _ _ _ ⟨isOpen, derived, -⟩
    exact .plain derived
  · dsimp only
    split
    · refine (yields_classDeclaration declYields ‹_› n).bind fun c => .result fun _ _ ts derived => ?_
      simpa using derived
    · refine (yields_traitDeclaration declYields ‹_› n).bind fun t => .result fun _ _ ts derived => ?_
      simpa using derived
    · refine (yields_function declYields .function n).bind fun f => .result fun _ _ ts derived => ?_
      simpa using Derives.functionDef ‹_› derived
    · have isVar : token.kind = .kwVar := by simp_all [declarationKinds]
      exact (yields_varDeclaration n).imp fun _ _ _ _ derived => .varDef isVar derived

end

/-- Statements and declarations, by induction on the bound that both are read with. -/
theorem yields_statement_declaration (n : Nat) : Yields clean (statement n) (Stated clean) ∧
    Yields clean (declaration n) fun _ ts s _ => Declared clean ts s := by
  induction n with
  | zero => exact ⟨.noTokens _, .noTokens _⟩
  | succ n ih =>
    obtain ⟨nested, decl⟩ := ih
    exact ⟨yields_statementWith nested decl (n + 1), (yields_declarationWith nested decl (n + 1)).orRecover⟩

theorem yields_declarations (n : Nat) : Yields clean (declarations n) fun _ ts body after =>
    Derives (Fits clean) (.declarations body) ts ∧ ∃ last more, after = last :: more ∧ last.kind = .endOfFile := by
  induction n with
  | zero => exact .noTokens _
  | succ n ih =>
    refine .select (.looking fun found => .ite (fun isEnd => .result ?_) fun _ =>
      (yields_statement_declaration (n + 1)).2.bind fun read => ?_)
    · rintro _ ⟨next, more, rfl, rfl⟩
      exact ⟨[], by simp, fun _ => rfl, .noDeclarations, next, more, rfl, of_decide_eq_true isEnd⟩
    · cases read with
      | none => exact ih.imp fun _ us _ _ rest _ _ dropped _ => ⟨us, by simp, fun h => absurd h dropped, rest⟩
      | some =>
        refine ih.bind fun rest => .result ?_
        rintro _ _ us ⟨others, last⟩ _ ts one -
        exact ⟨ts ++ us, by simp, fun _ => by simp, .moreDeclarations one others, last⟩

/-- What a reader reads is written with some of the tokens that it is given. -/
theorem Yields.written {r : Reader α} {post : Post α} (yields : Yields False r post) {s s' : State} {value : α}
    (read : r s = .ok value s') : ∃ ts, ts ⊆ s.rest ∧ post s.rest ts value s'.rest := by
  have here := yields s
  rw [read] at here
  obtain ⟨_, -, -, reads⟩ := here
  obtain ⟨ts, sub, -, written⟩ := reads fun no => no.elim
  exact ⟨ts, sub, written⟩

variable {tokens : List Token} {program : List Stmt}

theorem declarations_of_parseProgram
    (parsed : (parseProgram tokens).result = .ok program) :
    ∃ s, declarations tokens.length ⟨tokens, []⟩ = .ok program s ∧ (parseProgram tokens).complaints = s.complaints := by
  simp only [parseProgram, Reader.parse, EStateM.run] at parsed ⊢
  cases ends : declarations tokens.length ⟨tokens, []⟩ with
  | error => simp [ends] at parsed
  | ok value s =>
    obtain rfl : value = program := by simpa [ends] using parsed
    exact ⟨s, rfl, rfl⟩

/-- Whatever a list of tokens is read as is in the grammar, even with complaints. -/
theorem derives_of_parseProgram
    (parsed : (parseProgram tokens).result = .ok program) :
    ∃ ts, ts ⊆ tokens ∧ Derives (Fits False) (.declarations program) ts := by
  obtain ⟨s, read, -⟩ := declarations_of_parseProgram parsed
  obtain ⟨ts, sub, derived, -⟩ := (yields_declarations tokens.length).written read
  exact ⟨ts, sub, derived⟩

/-- A program without complaints is written with all tokens up to the end of the source. -/
theorem derives_of_parseProgram_clean
    (parsed : parseProgram tokens = ⟨.ok program, []⟩) :
    ∃ ts last more, tokens = ts ++ last :: more ∧ last.kind = .endOfFile ∧
      Derives (· ≤ maxArguments) (.declarations program) ts := by
  obtain ⟨s, read, quiet⟩ := declarations_of_parseProgram (congrArg Parse.result parsed)
  have here := @yields_declarations True tokens.length ⟨tokens, []⟩
  rw [read] at here
  obtain ⟨more, made, -, reads⟩ := here
  rw [← quiet, parsed] at made
  obtain ⟨ts, -, whole, derived, last, others, left, isEnd⟩ := reads fun _ => made.symm
  have fits : Fits True = (· ≤ maxArguments) := by funext count; simp [Fits]
  exact ⟨ts, last, others, left ▸ whole trivial, isEnd, fits ▸ derived⟩

end LoxLang.Grammar
