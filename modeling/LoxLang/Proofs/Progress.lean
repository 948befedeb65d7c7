import LoxLang.Proofs.Completeness

/-!
Reading always comes to an end. On tokens with one that ends the source, however malformed the rest, every reader takes
tokens up to the first such token and none behind it, stops only at an error that it has reported, and never because its
bound is used up. A declaration that cannot be read is dropped with at least one token, so the list of declarations is
read to the end of the source.

Each reader is compared with itself at another bound, so that both facts come from one induction: it proceeds, and what
it reads does not depend on the bound.
-/

namespace LoxLang.Grammar

variable {least bound n n' : Nat} {s s' : State} {kinds : List TokenKind} {tokens : List Token}

variable {α β : Type}

/-- A token that ends a source. -/
structure Finish where
  token : Token
  isEnd : token.kind = .endOfFile

/-- What a reader has before it up to the end of the source: the tokens left, and the complaints made so far. -/
structure Front where
  tokens : List Token
  complaints : List Complaint
  inside : ∀ t ∈ tokens, t.kind ≠ .endOfFile

variable {finish : Finish} {front : Front}

def Front.size (front : Front) : Nat := front.tokens.length

/-- The state of a reader at a front, with some tokens behind the end of the source. -/
def Front.state (front : Front) (finish : Finish) (behind : List Token) : State :=
  ⟨front.tokens ++ finish.token :: behind, front.complaints⟩

def Front.complaining (front : Front) (complaint : Complaint) : Front :=
  { front with complaints := front.complaints ++ [complaint] }

theorem Front.reached_or_cons (front : Front) (finish : Finish) :
    (front.size = 0 ∧ ∀ behind, front.state finish behind = ⟨finish.token :: behind, front.complaints⟩) ∨
    ∃ (t : Token) (next : Front), t.kind ≠ .endOfFile ∧ next.size + 1 = front.size ∧
      next.complaints = front.complaints ∧
      ∀ behind, front.state finish behind = ⟨t :: (next.state finish behind).rest, front.complaints⟩ := by
  obtain ⟨tokens, complaints, inside⟩ := front
  cases tokens with
  | nil => exact .inl ⟨rfl, fun _ => rfl⟩
  | cons t more =>
    obtain ⟨first, others⟩ := List.forall_mem_cons.mp inside
    exact .inr ⟨t, ⟨more, complaints, others⟩, first, rfl, rfl, fun _ => rfl⟩

theorem Front.exists_next (front : Front) (finish : Finish) :
    ∃ t, ∀ behind, ∃ rest, front.state finish behind = ⟨t :: rest, front.complaints⟩ := by
  rcases front.reached_or_cons finish with ⟨-, state⟩ | ⟨t, next, -, -, -, state⟩
  · exact ⟨finish.token, fun behind => ⟨behind, state behind⟩⟩
  · exact ⟨t, fun behind => ⟨_, state behind⟩⟩

/-- Two readers yield the same value and take the same tokens, at least `least` of them and all before the end of the
source; what stands behind it makes no difference. -/
def Advances (finish : Finish) (least : Nat) (r r' : Reader α) (front : Front) : Prop :=
  ∃ (a : α) (later : Front), later.size + least ≤ front.size ∧ ∀ behind,
    r (front.state finish behind) = .ok a (later.state finish behind) ∧
    r' (front.state finish behind) = .ok a (later.state finish behind)

/-- Two readers stop at the same reported error and take the same tokens, all before the end of the source. -/
def Reports (finish : Finish) (r r' : Reader α) (front : Front) : Prop :=
  ∃ (error : SyntaxError) (token : Token) (later : Front), later.size ≤ front.size ∧ ∀ behind,
    r (front.state finish behind) = .error (.reported error token) (later.state finish behind) ∧
    r' (front.state finish behind) = .error (.reported error token) (later.state finish behind)

/-- Two readers do the same, and stay before the end of the source. -/
def Alike (finish : Finish) (least : Nat) (r r' : Reader α) (front : Front) : Prop :=
  Advances finish least r r' front ∨ Reports finish r r' front

/-- What two readers do is done as well by readers that come to them after taking some tokens. -/
theorem Alike.after {r r' q q' : Reader α} {later : Front} {given : Nat} (alike : Alike finish given q q' later)
    (shorter : later.size ≤ front.size) (enough : later.size + least ≤ front.size + given)
    (same : ∀ behind, r (front.state finish behind) = q (later.state finish behind) ∧
      r' (front.state finish behind) = q' (later.state finish behind)) : Alike finish least r r' front := by
  rcases alike with ⟨a, last, fewer, ends⟩ | ⟨error, token, last, fewer, ends⟩
  · refine .inl ⟨a, last, by omega, fun behind => ?_⟩
    rw [(same behind).1, (same behind).2]
    exact ends behind
  · refine .inr ⟨error, token, last, by omega, fun behind => ?_⟩
    rw [(same behind).1, (same behind).2]
    exact ends behind

variable {r r' : Reader α}

theorem Alike.fewer {most : Nat} (alike : Alike finish most r r' front) (fewer : least ≤ most) :
    Alike finish least r r' front :=
  alike.after (Nat.le_refl _) (by omega) fun _ => ⟨rfl, rfl⟩

/-- One reader after another. The first takes some of the tokens that both have to take. -/
theorem Alike.bind {x x' : Reader α} {f f' : α → Reader β} {taken : Nat} (alike : Alike finish taken x x' front)
    (next : ∀ (a : α) (later : Front), later.size + taken ≤ front.size →
      Alike finish (least - taken) (f a) (f' a) later) : Alike finish least (x >>= f) (x' >>= f') front := by
  rcases alike with ⟨a, later, shorter, ends⟩ | ⟨error, token, later, shorter, ends⟩
  · refine (next a later shorter).after (by omega) (by omega) fun behind => ?_
    exact ⟨andThen (ends behind).1, andThen (ends behind).2⟩
  · refine .inr ⟨error, token, later, shorter, fun behind => ?_⟩
    exact ⟨stopped (ends behind).1, stopped (ends behind).2⟩

/-! ### One token -/

theorem alike_pure (a : α) : Alike finish 0 (pure a) (pure a) front :=
  .inl ⟨a, front, Nat.le_refl _, fun _ => ⟨rfl, rfl⟩⟩

theorem alike_complain (error : SyntaxError) (token : Token) :
    Alike finish 0 (complain error token) (complain error token) front :=
  .inl ⟨(), front.complaining ⟨⟨.line token.line, error.message⟩, true⟩, Nat.le_refl _, fun _ => ⟨rfl, rfl⟩⟩

theorem alike_note (error : SyntaxError) (token : Token) :
    Alike finish 0 (note error token) (note error token) front :=
  .inl ⟨(), front.complaining ⟨⟨.token token, error.message⟩, false⟩, Nat.le_refl _, fun _ => ⟨rfl, rfl⟩⟩

theorem alike_fail (least : Nat) (error : SyntaxError) (token : Token) :
    Alike finish least (fail error token : Reader α) (fail error token) front :=
  .inr ⟨error, token, front.complaining ⟨⟨.line token.line, error.message⟩, true⟩, Nat.le_refl _, fun _ => ⟨rfl, rfl⟩⟩

theorem alike_peek : Alike finish 0 peek peek front := by
  obtain ⟨t, next⟩ := front.exists_next finish
  refine .inl ⟨t, front, Nat.le_refl _, fun behind => ?_⟩
  obtain ⟨rest, state⟩ := next behind
  rw [state]
  exact ⟨rfl, rfl⟩

variable {kind : TokenKind}

theorem Alike.nextIs {f f' : Bool → Reader α}
    (next : ∀ found, Alike finish least (f found) (f' found) front) :
    Alike finish least (Grammar.nextIs kind >>= f) (Grammar.nextIs kind >>= f') front := by
  obtain ⟨t, known⟩ := front.exists_next finish
  refine (next (decide (t.kind = kind))).after (Nat.le_refl _) (Nat.le_refl _) fun behind => ?_
  obtain ⟨rest, state⟩ := known behind
  rw [state, andThen (nextIs_cons ..), andThen (nextIs_cons ..)]
  exact ⟨rfl, rfl⟩

theorem Alike.atEnd {f f' : Bool → Reader α} (reached : front.size = 0 → Alike finish least (f true) (f' true) front)
    (before : 0 < front.size → Alike finish least (f false) (f' false) front) :
    Alike finish least (Grammar.atEnd >>= f) (Grammar.atEnd >>= f') front := by
  rcases front.reached_or_cons finish with ⟨empty, state⟩ | ⟨t, next, inside, shorter, -, state⟩
  · refine (reached empty).after (Nat.le_refl _) (Nat.le_refl _) fun behind => ?_
    rw [state, Grammar.atEnd, andThen (nextIs_cons ..), andThen (nextIs_cons ..), decide_eq_true finish.isEnd]
    exact ⟨rfl, rfl⟩
  · refine (before (by omega)).after (Nat.le_refl _) (Nat.le_refl _) fun behind => ?_
    rw [state, Grammar.atEnd, andThen (nextIs_cons ..), andThen (nextIs_cons ..), decide_eq_false inside]
    exact ⟨rfl, rfl⟩

theorem Alike.take (noEnd : .endOfFile ∉ kinds) {f f' : Option Token → Reader α}
    (none : Alike finish least (f none) (f' none) front)
    (some : ∀ (t : Token) (later : Front), later.size + 1 = front.size →
      Alike finish (least - 1) (f (some t)) (f' (some t)) later) :
    Alike finish least (takeAny? kinds >>= f) (takeAny? kinds >>= f') front := by
  rcases front.reached_or_cons finish with ⟨-, state⟩ | ⟨t, next, inside, shorter, same, state⟩
  · have notTaken : finish.token.kind ∉ kinds := finish.isEnd ▸ noEnd
    refine none.after (Nat.le_refl _) (Nat.le_refl _) fun behind => ?_
    rw [state, andThen (takeAny?_of_not_mem notTaken ..), andThen (takeAny?_of_not_mem notTaken ..)]
    exact ⟨rfl, rfl⟩
  · by_cases member : t.kind ∈ kinds
    · refine (some t next shorter).after (by omega) (by omega) fun behind => ?_
      rw [state, andThen (takeAny?_of_mem member ..), andThen (takeAny?_of_mem member ..), ← same]
      exact ⟨rfl, rfl⟩
    · refine none.after (Nat.le_refl _) (Nat.le_refl _) fun behind => ?_
      rw [state, andThen (takeAny?_of_not_mem member ..), andThen (takeAny?_of_not_mem member ..)]
      exact ⟨rfl, rfl⟩

theorem Alike.expect {what : Missing} (inside : kind ≠ .endOfFile) {f f' : Token → Reader α}
    (next : ∀ (t : Token) (later : Front), later.size + 1 ≤ front.size → Alike finish (least - 1) (f t) (f' t) later) :
    Alike finish least (Grammar.expect kind what >>= f) (Grammar.expect kind what >>= f') front := by
  have taken : Alike finish 1 (Grammar.expect kind what) (Grammar.expect kind what) front :=
    .take (by simpa using inside.symm) (alike_peek.bind fun t _ _ => alike_fail _ _ t) fun t _ _ => alike_pure t
  exact taken.bind next

/-- A reader before a token that closes what it reads. -/
theorem Alike.closed {x x' : Reader α} {taken : Nat} {what : Missing} {g : α → Token → β}
    (alike : Alike finish taken x x' front) (inside : kind ≠ .endOfFile) (few : least ≤ 1) :
    Alike finish least (x >>= fun a => Grammar.expect kind what >>= fun t => pure (g a t))
      (x' >>= fun a => Grammar.expect kind what >>= fun t => pure (g a t)) front :=
  alike.bind fun _ _ _ => .expect inside fun _ _ _ => (alike_pure _).fewer (by omega)

theorem Alike.limited {beyond : Prop} [Decidable beyond] {warn : Token → Reader Unit}
    (warned : ∀ (t : Token) (later : Front), Alike finish 0 (warn t) (warn t) later)
    (alike : ∀ later : Front, later.size ≤ front.size → Alike finish least r r' later) :
    Alike finish least (if beyond then (do let t ← peek; warn t; r) else r)
      (if beyond then (do let t ← peek; warn t; r') else r') front := by
  split
  · refine alike_peek.bind ?_
    intro t front₁ shorter
    refine (warned t front₁).bind ?_
    intro _ front₂ shorter'
    exact alike front₂ (by omega)
  · exact alike front (Nat.le_refl _)

/-! ### Expressions -/

/-- Induction on two bounds at once, down to where one of them is used up. -/
theorem boundsInduction {motive : Nat → Nat → Prop} (none : ∀ n n', min n n' = 0 → motive n n')
    (both : ∀ n n', motive n n' → motive (n + 1) (n' + 1)) : ∀ n n', motive n n'
  | 0, _ => none _ _ (Nat.zero_min _)
  | _ + 1, 0 => none _ _ (Nat.min_zero _)
  | n + 1, n' + 1 => both n n' (boundsInduction none both n n')

/-- Two readers are alike wherever fewer than `bound` tokens are left. -/
def AlikeUpTo (finish : Finish) (least bound : Nat) (r r' : Reader α) : Prop :=
  ∀ ⦃front : Front⦄, front.size < bound → Alike finish least r r' front

variable {make : Expr → Token → Expr → Expr} {operand operand' : Reader Expr}

theorem alike_leftGrouped (noEnd : .endOfFile ∉ kinds)
    (operandAlike : AlikeUpTo finish 1 bound operand operand') (first : Expr)
    (enough : front.size < min n n') (inside : front.size ≤ bound) :
    Alike finish 0 (leftGrouped make kinds operand n first) (leftGrouped make kinds operand' n' first) front := by
  induction n, n' using boundsInduction generalizing front first with
  | none => omega
  | both _ _ ih =>
    refine Alike.take noEnd (alike_pure first) ?_
    intro op front₁ shorter₁
    refine (operandAlike (by omega)).bind ?_
    intro second front₂ shorter₂
    exact ih _ (by omega) (by omega)

/-- A layer begins with an operand, so it takes what an operand takes. -/
theorem alike_layer (noEnd : .endOfFile ∉ kinds)
    (enough : bound ≤ min n n') (operandAlike : AlikeUpTo finish 1 bound operand operand') :
    AlikeUpTo finish 1 bound (layer make kinds n operand) (layer make kinds n' operand') := by
  intro front within
  refine (operandAlike within).bind ?_
  intro first front₁ shorter₁
  exact alike_leftGrouped noEnd operandAlike first (by omega) (by omega)

theorem alike_assignTo (target : Expr) (equals : Token) (value : Expr) :
    Alike finish 0 (assignTo target equals value) (assignTo target equals value) front := by
  unfold assignTo
  split
  · exact alike_pure _
  · exact alike_pure _
  · exact (alike_complain _ equals).bind fun _ _ _ => alike_pure target

section
variable {nested nested' : Reader Expr} {bound : Nat} (nestedAlike : AlikeUpTo finish 1 bound nested nested')
include nestedAlike

theorem alike_moreArguments (count : Nat) (enough : front.size < min n n') (inside : front.size < bound) :
    Alike finish 0 (moreArguments nested n count) (moreArguments nested' n' count) front := by
  induction n, n' using boundsInduction generalizing front count with
  | none => omega
  | both _ _ ih =>
    refine Alike.take (by decide) (alike_pure []) ?_
    intro comma front₁ shorter₁
    refine Alike.limited (fun t _ => alike_complain _ t) ?_
    intro front₂ shorter₂
    refine (nestedAlike (by omega)).bind ?_
    intro argument front₃ shorter₃
    exact (ih (count + 1) (by omega) (by omega)).bind fun _ _ _ => alike_pure _

theorem alike_arguments (enough : front.size ≤ min n n') (inside : front.size < bound) :
    Alike finish 0 (arguments nested n) (arguments nested' n') front := by
  refine Alike.nextIs ?_
  intro closed
  cases closed with
  | true => exact alike_pure []
  | false =>
    refine (nestedAlike inside).bind ?_
    intro first front₁ shorter₁
    exact (alike_moreArguments nestedAlike 1 (by omega) (by omega)).bind fun _ _ _ => alike_pure _

theorem alike_suffixes (object : Expr) (enough : front.size < min n n') (inside : front.size ≤ bound) :
    Alike finish 0 (suffixes nested n object) (suffixes nested' n' object) front := by
  induction n, n' using boundsInduction generalizing front object with
  | none => omega
  | both _ _ ih =>
    refine Alike.take (by decide) ?_ ?_
    · refine Alike.take (by decide) (alike_pure object) ?_
      intro dot front₁ shorter₁
      refine .expect (by decide) ?_
      intro name front₂ shorter₂
      exact ih _ (by omega) (by omega)
    · intro left front₁ shorter₁
      refine (alike_arguments nestedAlike (by omega) (by omega)).bind ?_
      intro values front₂ shorter₂
      refine .expect (by decide) ?_
      intro right front₃ shorter₃
      exact ih _ (by omega) (by omega)

theorem alike_primary : AlikeUpTo finish 1 (bound + 1) (primary nested) (primary nested') := by
  intro front within
  refine Alike.take (by decide) ?_ ?_
  · exact alike_peek.bind fun t _ _ => alike_fail _ _ t
  · intro token front₁ shorter₁
    dsimp only
    split
    case h_6 =>
      refine .expect (by decide) ?_
      intro dot front₂ _
      exact .expect (by decide) fun _ _ _ => alike_pure _
    case h_9 =>
      exact (nestedAlike (by omega)).closed (by decide) (by decide)
    all_goals exact alike_pure _

theorem alike_unary (enough : front.size < min n n') (inside : front.size ≤ bound) :
    Alike finish 1 (unary nested n) (unary nested' n') front := by
  induction n, n' using boundsInduction generalizing front with
  | none => omega
  | both _ _ ih =>
    refine Alike.take (by decide) ?_ ?_
    · refine (alike_primary nestedAlike (Nat.lt_succ_of_le inside)).bind ?_
      intro e front₁ shorter₁
      exact alike_suffixes nestedAlike e (by omega) (by omega)
    · intro op front₁ shorter₁
      exact (ih (by omega) (by omega)).bind fun _ _ _ => alike_pure _

theorem alike_disjunction {m : Nat} (enough : m ≤ min n n') (inside : m ≤ bound + 1) :
    AlikeUpTo finish 1 m (disjunction nested n) (disjunction nested' n') := by
  have operands : AlikeUpTo finish 1 m (unary nested n) (unary nested' n') := by
    intro front within
    exact alike_unary nestedAlike (by omega) (by omega)
  unfold disjunction
  iterate 6 refine alike_layer (by decide) enough ?_
  exact operands

theorem alike_assignment (enough : front.size < min n n') (inside : front.size ≤ bound) :
    Alike finish 1 (assignment nested n) (assignment nested' n') front := by
  induction n, n' using boundsInduction generalizing front with
  | none => omega
  | both _ _ ih =>
    refine (alike_disjunction nestedAlike enough (by omega) (Nat.lt_succ_self _)).bind ?_
    intro target front₁ shorter₁
    refine Alike.take (by decide) (alike_pure target) ?_
    intro equals front₂ shorter₂
    exact (ih (by omega) (by omega)).bind fun value _ _ => alike_assignTo target equals value

theorem alike_conditional (enough : front.size < min n n') (inside : front.size ≤ bound) :
    Alike finish 1 (conditional nested n) (conditional nested' n') front := by
  refine (alike_assignment nestedAlike enough inside).bind ?_
  intro test front₁ shorter₁
  refine Alike.take (by decide) (alike_pure test) ?_
  intro question front₂ shorter₂
  refine (nestedAlike (by omega)).bind ?_
  intro yes front₃ shorter₃
  refine .expect (by decide) ?_
  intro colon front₄ shorter₄
  exact (nestedAlike (by omega)).bind fun _ _ _ => alike_pure _

end

/-- An expression takes a token, and what is read does not depend on the bound. -/
theorem alike_expression (enough : front.size < min n n') : Alike finish 1 (expression n) (expression n') front := by
  induction n, n' using boundsInduction generalizing front with
  | none => omega
  | both n n' ih =>
    have nested : AlikeUpTo finish 1 (min n n') (expression n) (expression n') := by
      intro front within
      exact ih within
    exact alike_conditional nested (by omega) (by omega)

/-! ### Lists -/

/-- Two readers are alike before the end of the source, wherever fewer than `bound` tokens are left. -/
def AlikeBefore (finish : Finish) (bound : Nat) (r r' : Reader α) : Prop :=
  ∀ ⦃front : Front⦄, 0 < front.size → front.size < bound → Alike finish 1 r r' front

theorem AlikeUpTo.before (alike : AlikeUpTo finish 1 bound r r') :
    AlikeBefore finish bound r r' := fun _ _ within => alike within

/-- Items are read only before the end of the source, where each of them takes a token. -/
theorem alike_untilBrace {item item' : Reader α} (itemAlike : AlikeBefore finish bound item item')
    (enough : front.size < min n n') (inside : front.size < bound) :
    Alike finish 0 (untilBrace item n) (untilBrace item' n') front := by
  induction n, n' using boundsInduction generalizing front with
  | none => omega
  | both n n' ih =>
    refine Alike.nextIs ?_
    intro closed
    refine Alike.atEnd ?_ ?_
    · intro _
      simp only [Bool.or_true, if_true]
      exact alike_pure []
    · intro notEnd
      split
      · exact alike_pure []
      · refine (itemAlike notEnd inside).bind ?_
        intro first front₁ shorter₁
        exact (ih (by omega) (by omega)).bind fun _ _ _ => alike_pure _

theorem alike_commaSeparated {item : Reader α} (itemAlike : ∀ front : Front, Alike finish 1 item item front)
    (enough : front.size < min n n') : Alike finish 1 (commaSeparated item n) (commaSeparated item n') front := by
  induction n, n' using boundsInduction generalizing front with
  | none => omega
  | both _ _ ih =>
    refine (itemAlike front).bind ?_
    intro first front₁ shorter₁
    refine Alike.take (by decide) (alike_pure [first]) ?_
    intro comma front₂ shorter₂
    exact (ih (by omega)).bind fun _ _ _ => alike_pure _

theorem alike_parameters (count : Nat) (enough : front.size < min n n') :
    Alike finish 1 (parameters n count) (parameters n' count) front := by
  induction n, n' using boundsInduction generalizing front count with
  | none => omega
  | both _ _ ih =>
    refine Alike.limited (fun t _ => alike_note _ t) ?_
    intro front₁ shorter₁
    refine .expect (by decide) ?_
    intro name front₂ shorter₂
    refine Alike.take (by decide) (alike_pure [name]) ?_
    intro comma front₃ shorter₃
    exact (ih (count + 1) (by omega)).bind fun _ _ _ => alike_pure _

theorem alike_parameterList (kind : FunctionKind) (enough : front.size < min n n') :
    Alike finish 0 (parameterList kind n) (parameterList kind n') front := by
  refine Alike.nextIs ?_
  intro opened
  split
  · exact alike_pure none
  · refine .expect (by decide) ?_
    intro left front₁ shorter₁
    refine Alike.nextIs ?_
    intro closed
    cases closed with
    | true =>
      exact (alike_pure []).closed (by decide) (by decide)
    | false =>
      exact (alike_parameters 0 (by omega)).closed (by decide) (by decide)

theorem alike_withClause (enough : front.size < min n n') : Alike finish 0 (withClause n) (withClause n') front := by
  refine Alike.take (by decide) (alike_pure []) ?_
  intro keyword front₁ shorter₁
  refine (alike_commaSeparated ?_ (by omega)).fewer (Nat.zero_le 1)
  intro _
  exact .expect (by decide) fun _ _ _ => alike_pure _

theorem alike_superclassClause : Alike finish 0 superclassClause superclassClause front := by
  refine Alike.take (by decide) (alike_pure none) ?_
  intro less front₁ shorter₁
  exact .expect (by decide) fun _ _ _ => alike_pure _

/-! ### Functions, classes and traits -/

section
variable {decl decl' : Reader (Option Stmt)} {bound : Nat} (declAlike : AlikeBefore finish bound decl decl')
include declAlike

theorem alike_block (enough : front.size < min n n') (inside : front.size < bound) :
    Alike finish 1 (block decl n) (block decl' n') front := by
  exact (alike_untilBrace declAlike enough inside).closed (by decide) (by decide)

theorem alike_function (kind : FunctionKind) (enough : front.size < min n n') (inside : front.size < bound) :
    Alike finish 1 (function kind decl n) (function kind decl' n') front := by
  refine .expect (by decide) ?_
  intro name front₁ shorter₁
  refine (alike_parameterList kind (by omega)).bind ?_
  intro params front₂ shorter₂
  refine .expect (by decide) ?_
  intro left front₃ shorter₃
  exact (alike_block declAlike (by omega) (by omega)).bind fun _ _ _ => alike_pure _

theorem alike_classMember (enough : bound ≤ min n n') :
    AlikeUpTo finish 1 bound (classMember decl n) (classMember decl' n') := by
  intro front within
  refine Alike.take (by decide) ?_ ?_
  · exact (alike_function declAlike .method (by omega) within).bind fun _ _ _ => alike_pure _
  · intro keyword front₁ shorter₁
    refine (alike_function declAlike .method (by omega) (by omega)).bind ?_
    exact fun _ _ _ => alike_pure _

theorem alike_classDeclaration (enough : bound ≤ min n n') (inside : front.size < bound) :
    Alike finish 1 (classDeclaration decl n) (classDeclaration decl' n') front := by
  refine .expect (by decide) ?_
  intro name front₁ shorter₁
  refine (alike_superclassClause).bind ?_
  intro base front₂ shorter₂
  refine (alike_withClause (by omega)).bind ?_
  intro traits front₃ shorter₃
  refine .expect (by decide) ?_
  intro left front₄ shorter₄
  exact (alike_untilBrace (alike_classMember declAlike enough).before (by omega) (by omega)).closed (by decide) (by decide)

theorem alike_traitDeclaration (enough : bound ≤ min n n') (inside : front.size < bound) :
    Alike finish 1 (traitDeclaration decl n) (traitDeclaration decl' n') front := by
  have methods : AlikeUpTo finish 1 bound (function .method decl n) (function .method decl' n') := by
    intro front within
    exact alike_function declAlike .method (by omega) within
  refine .expect (by decide) ?_
  intro name front₁ shorter₁
  refine (alike_withClause (by omega)).bind ?_
  intro traits front₂ shorter₂
  refine .expect (by decide) ?_
  intro left front₃ shorter₃
  exact (alike_untilBrace methods.before (by omega) (by omega)).closed (by decide) (by decide)

end

/-! ### Statements -/

section
variable {n n' : Nat} (enough : front.size < min n n')
include enough

theorem alike_varDeclaration : Alike finish 1 (varDeclaration n) (varDeclaration n') front := by
  refine .expect (by decide) ?_
  intro name front₁ shorter₁
  refine Alike.take (by decide) ?_ ?_
  · exact (alike_pure _).closed (by decide) (by decide)
  · intro equals front₂ shorter₂
    exact (alike_expression (by omega)).closed (by decide) (by decide)

theorem alike_expressionStatement : Alike finish 1 (expressionStatement n) (expressionStatement n') front := by
  exact (alike_expression enough).closed (by decide) (by decide)

theorem alike_unlessNext (kind : TokenKind) : Alike finish 0 (unlessNext kind n) (unlessNext kind n') front := by
  refine Alike.nextIs ?_
  intro closed
  cases closed with
  | true => exact alike_pure none
  | false => exact (alike_expression enough).bind fun _ _ _ => alike_pure _

theorem alike_returnStatement (keyword : Token) :
    Alike finish 1 (returnStatement keyword n) (returnStatement keyword n') front := by
  exact (alike_unlessNext enough .semicolon).closed (by decide) (by decide)

theorem alike_printStatement : Alike finish 1 (printStatement n) (printStatement n') front := by
  exact (alike_expression enough).closed (by decide) (by decide)

theorem alike_forInitializer : Alike finish 1 (forInitializer n) (forInitializer n') front := by
  refine Alike.take (by decide) ?_ ?_
  · exact (alike_expressionStatement enough).bind fun _ _ _ => alike_pure _
  · intro token front₁ shorter₁
    dsimp only
    split
    · exact alike_pure none
    · exact (alike_varDeclaration (by omega)).bind fun _ _ _ => alike_pure _

end

section
variable {nested nested' : Reader Stmt} {bound : Nat} (nestedAlike : AlikeUpTo finish 1 bound nested nested')
include nestedAlike

theorem alike_ifStatement (enough : front.size < min n n') (inside : front.size < bound) :
    Alike finish 1 (ifStatement nested n) (ifStatement nested' n') front := by
  refine .expect (by decide) ?_
  intro left front₁ shorter₁
  refine (alike_expression (by omega)).bind ?_
  intro test front₂ shorter₂
  refine .expect (by decide) ?_
  intro right front₃ shorter₃
  refine (nestedAlike (by omega)).bind ?_
  intro yes front₄ shorter₄
  refine Alike.take (by decide) (alike_pure _) ?_
  intro other front₅ _
  exact (nestedAlike (by omega)).bind fun _ _ _ => alike_pure _

theorem alike_whileStatement (enough : front.size < min n n') (inside : front.size < bound) :
    Alike finish 1 (whileStatement nested n) (whileStatement nested' n') front := by
  refine .expect (by decide) ?_
  intro left front₁ shorter₁
  refine (alike_expression (by omega)).bind ?_
  intro test front₂ shorter₂
  refine .expect (by decide) ?_
  intro right front₃ shorter₃
  exact (nestedAlike (by omega)).bind fun _ _ _ => alike_pure _

theorem alike_forStatement (enough : front.size < min n n') (inside : front.size < bound) :
    Alike finish 1 (forStatement nested n) (forStatement nested' n') front := by
  refine .expect (by decide) ?_
  intro left front₁ shorter₁
  refine (alike_forInitializer (by omega)).bind ?_
  intro initializer front₂ shorter₂
  refine (alike_unlessNext (by omega) .semicolon).bind ?_
  intro test front₃ shorter₃
  refine .expect (by decide) ?_
  intro semicolon front₄ shorter₄
  refine (alike_unlessNext (by omega) .rightParen).bind ?_
  intro increment front₅ shorter₅
  refine .expect (by decide) ?_
  intro right front₆ shorter₆
  exact (nestedAlike (by omega)).bind fun _ _ _ => alike_pure _

end

section
variable {nested nested' : Reader Stmt} {decl decl' : Reader (Option Stmt)} {bound n n' : Nat}
  (nestedAlike : AlikeUpTo finish 1 bound nested nested') (declAlike : AlikeBefore finish bound decl decl')
  (enough : bound + 1 ≤ min n n') (inside : front.size ≤ bound)
include nestedAlike declAlike enough inside

theorem alike_statementWith : Alike finish 1 (statementWith nested decl n) (statementWith nested' decl' n') front := by
  refine Alike.take (by decide) (alike_expressionStatement (by omega)) ?_
  intro token front₁ shorter₁
  refine Alike.fewer (?_ : Alike finish 1 _ _ front₁) (Nat.zero_le 1)
  dsimp only
  split
  · exact alike_ifStatement nestedAlike (by omega) (by omega)
  · exact alike_forStatement nestedAlike (by omega) (by omega)
  · exact alike_printStatement (by omega)
  · exact alike_returnStatement (by omega) token
  · exact alike_whileStatement nestedAlike (by omega) (by omega)
  · exact .expect (by decide) fun _ _ _ => alike_pure _
  · exact (alike_block declAlike (by omega) (by omega)).bind fun _ _ _ => alike_pure _

theorem alike_declarationWith :
    Alike finish 1 (declarationWith nested decl n) (declarationWith nested' decl' n') front := by
  refine Alike.take (by decide) (alike_statementWith nestedAlike declAlike enough inside) ?_
  intro token front₁ shorter₁
  refine Alike.fewer (?_ : Alike finish 1 _ _ front₁) (Nat.zero_le 1)
  dsimp only
  split
  · exact (alike_classDeclaration declAlike (by omega) (by omega)).bind fun _ _ _ => alike_pure _
  · exact (alike_traitDeclaration declAlike (by omega) (by omega)).bind fun _ _ _ => alike_pure _
  · exact (alike_function declAlike .function (by omega) (by omega)).bind fun _ _ _ => alike_pure _
  · exact alike_varDeclaration (by omega)

end

/-! ### Recovery -/

/-- Reading goes on at a later token, at the end of the source at the latest. -/
theorem exists_restart (finish : Finish) (last : Token) (inside : ∀ t ∈ tokens, t.kind ≠ .endOfFile) :
    ∃ kept, kept <:+ tokens ∧
      ∀ behind, restart last (tokens ++ finish.token :: behind) = kept ++ finish.token :: behind := by
  induction tokens generalizing last with
  | nil =>
    refine ⟨[], List.suffix_rfl, fun behind => ?_⟩
    rw [List.nil_append, restart, if_pos (by simp [finish.isEnd])]
  | cons t more ih =>
    by_cases stays : (t.kind = .endOfFile || last.kind = .semicolon || t.kind ∈ restartKinds) = true
    · refine ⟨t :: more, List.suffix_rfl, fun behind => ?_⟩
      rw [List.cons_append, restart, if_pos stays]
    · obtain ⟨kept, later, ends⟩ := ih t (List.forall_mem_cons.mp inside).2
      refine ⟨kept, later.trans (List.suffix_cons t more), fun behind => ?_⟩
      rw [List.cons_append, restart, if_neg stays, ends]

/-- After an error reading goes on at the end of the source or with at least one token less. -/
theorem exists_recover (finish : Finish) (front : Front) : ∃ later : Front,
    later.size ≤ front.size ∧ (later.size = 0 ∨ later.size < front.size) ∧
      ∀ behind, recover (front.state finish behind) = .ok () (later.state finish behind) := by
  obtain ⟨tokens, complaints, inside⟩ := front
  cases tokens with
  | nil =>
    refine ⟨⟨[], complaints, inside⟩, Nat.le_refl _, .inl rfl, fun behind => ?_⟩
    exact if_pos finish.isEnd
  | cons t more =>
    obtain ⟨first, others⟩ := List.forall_mem_cons.mp inside
    obtain ⟨kept, later, ends⟩ := exists_restart finish t others
    have shorter : kept.length < (t :: more).length := Nat.lt_succ_of_le later.length_le
    refine ⟨⟨kept, complaints, fun u member => others u (later.mem member)⟩, Nat.le_of_lt shorter, .inr shorter, ?_⟩
    intro behind
    simp only [Front.state, recover, List.cons_append, if_neg first, ends]
    cases kept <;> rfl

theorem orRecover_of_reported {r : Reader α} {s'' : State} {error : SyntaxError} {token : Token}
    (ends : r s = .error (.reported error token) s') (recovered : recover s' = .ok () s'') :
    orRecover r s = .ok none s'' := by
  simp only [orRecover, tryCatch, tryCatchThe, MonadExceptOf.tryCatch, EStateM.tryCatch, Functor.map, EStateM.map, ends]
  exact andThen recovered

/-- Before the end of the source, a declaration is read or dropped, and at least one token with it. -/
theorem advances_orRecover (before : 0 < front.size) (alike : Alike finish 1 r r' front) :
    Advances finish 1 (orRecover r) (orRecover r') front := by
  rcases alike with ⟨a, later, shorter, ends⟩ | ⟨error, token, failed, shorter, ends⟩
  · exact ⟨some a, later, shorter, fun behind => ⟨orRecover_of_ok (ends behind).1, orRecover_of_ok (ends behind).2⟩⟩
  · obtain ⟨later, fewer, progress, recovered⟩ := exists_recover finish failed
    refine ⟨none, later, by omega, fun behind => ?_⟩
    exact ⟨orRecover_of_reported (ends behind).1 (recovered behind),
      orRecover_of_reported (ends behind).2 (recovered behind)⟩

/-- Statements and declarations, by induction on the first of the two bounds. -/
theorem alike_statement_declaration (finish : Finish) (n : Nat) :
    (∀ (n' : Nat) (front : Front), front.size < min n n' → Alike finish 1 (statement n) (statement n') front) ∧
    ∀ (n' : Nat) (front : Front), 0 < front.size → front.size < min n n' →
      Advances finish 1 (declaration n) (declaration n') front := by
  induction n with
  | zero => exact ⟨fun _ _ within => absurd within (by omega), fun _ _ _ within => absurd within (by omega)⟩
  | succ n ih =>
    obtain ⟨statements, declarations⟩ := ih
    have nested (n' : Nat) : AlikeUpTo finish 1 (min n n') (statement n) (statement n') :=
      fun front within => statements n' front within
    have decl (n' : Nat) : AlikeBefore finish (min n n') (declaration n) (declaration n') :=
      fun front before within => .inl (declarations n' front before within)
    refine ⟨?_, ?_⟩
    · intro n' front within
      obtain ⟨n', rfl⟩ := Nat.exists_eq_add_one_of_ne_zero (n := n') (by omega)
      exact alike_statementWith (nested n') (decl n') (by omega) (by omega)
    · intro n' front before within
      obtain ⟨n', rfl⟩ := Nat.exists_eq_add_one_of_ne_zero (n := n') (by omega)
      exact advances_orRecover before (alike_declarationWith (nested n') (decl n') (by omega) (by omega))

theorem Advances.all {r : Nat → Reader α} {k : Nat} (advances : ∀ n, k ≤ n → Advances finish least (r k) (r n) front) :
    ∃ (a : α) (later : Front), later.size + least ≤ front.size ∧
      ∀ n, k ≤ n → ∀ behind, r n (front.state finish behind) = .ok a (later.state finish behind) := by
  obtain ⟨a, later, shorter, ends⟩ := advances k (Nat.le_refl k)
  refine ⟨a, later, shorter, fun n enough behind => ?_⟩
  obtain ⟨a', later', -, ends'⟩ := advances n enough
  rw [(ends' behind).2, ← (ends' behind).1, (ends behind).1]

/-- A declaration before the end of the source takes a token, whatever comes of it. -/
theorem exists_declaration (finish : Finish) {front : Front} (before : 0 < front.size) :
    ∃ (found : Option Stmt) (later : Front), later.size < front.size ∧ ∀ n, front.size < n → ∀ behind,
      declaration n (front.state finish behind) = .ok found (later.state finish behind) := by
  have advances : ∀ n, front.size + 1 ≤ n →
      Advances finish 1 (declaration (front.size + 1)) (declaration n) front := by
    intro n enough
    exact (alike_statement_declaration finish (front.size + 1)).2 n front before (by omega)
  exact Advances.all (r := declaration) advances

/-- One declaration before the others; a dropped one leaves nothing. -/
theorem declarations_of_declaration {t : Token} {rest : List Token} {complaints : List Complaint}
    {found : Option Stmt} {others : List Stmt} (inside : t.kind ≠ .endOfFile)
    (first : declaration (n + 1) ⟨t :: rest, complaints⟩ = .ok found s) (next : declarations n s = .ok others s') :
    declarations (n + 1) ⟨t :: rest, complaints⟩ = .ok (found.toList ++ others) s' := by
  rw [declarations, atEnd, andThen (nextIs_cons ..), decide_eq_false inside, if_neg Bool.false_ne_true, andThen first]
  cases found with
  | none => exact next
  | some decl => exact andThen next

theorem exists_declarations (finish : Finish) (front : Front) :
    ∃ program complaints, ∀ n, front.size < n → ∀ behind,
      declarations n (front.state finish behind) = .ok program ⟨finish.token :: behind, complaints⟩ := by
  induction known : front.size using Nat.strong_induction_on generalizing front with
  | h size ih =>
    subst known
    rcases front.reached_or_cons finish with ⟨-, state⟩ | ⟨t, next, inside, shorter, -, state⟩
    · refine ⟨[], front.complaints, fun n enough behind => ?_⟩
      obtain ⟨n, rfl⟩ := Nat.exists_eq_add_one_of_ne_zero (n := n) (by omega)
      rw [state, declarations, atEnd, andThen (nextIs_cons ..), decide_eq_true finish.isEnd]
      rfl
    · obtain ⟨found, later, fewer, first⟩ := exists_declaration finish (show 0 < front.size by omega)
      obtain ⟨program, complaints, others⟩ := ih later.size fewer later rfl
      refine ⟨found.toList ++ program, complaints, fun n enough behind => ?_⟩
      obtain ⟨n, rfl⟩ := Nat.exists_eq_add_one_of_ne_zero (n := n) (by omega)
      specialize first (n + 1) enough behind
      rw [state] at first ⊢
      exact declarations_of_declaration inside first (others n (by omega) behind)

/-! ### Positions -/

/-- The number of tokens before the first one that ends the source. -/
def firstEnd (tokens : List Token) : Nat := tokens.findIdx (·.kind = .endOfFile)

/-- The state of a reader that has taken `current` of the tokens. -/
def State.reached (tokens : List Token) (current : Nat) (complaints : List Complaint) : State :=
  ⟨tokens.drop current, complaints⟩

theorem exists_take_firstEnd (hasEnd : ∃ t ∈ tokens, t.kind = .endOfFile) :
    ∃ (finish : Finish) (before : List Token), tokens.take (firstEnd tokens + 1) = before ++ [finish.token] ∧
      before.length = firstEnd tokens ∧ ∀ t ∈ before, t.kind ≠ .endOfFile := by
  have within : firstEnd tokens < tokens.length := by
    obtain ⟨t, member, isEnd⟩ := hasEnd
    exact List.findIdx_lt_length_of_exists ⟨t, member, by simpa using isEnd⟩
  have isEnd : tokens[firstEnd tokens].kind = .endOfFile := by
    have found : decide (tokens[firstEnd tokens].kind = .endOfFile) = true := List.findIdx_getElem (w := within)
    exact of_decide_eq_true found
  refine ⟨⟨tokens[firstEnd tokens], isEnd⟩, tokens.take (firstEnd tokens), ?_, ?_, ?_⟩
  · exact List.take_succ_eq_append_getElem within
  · rw [List.length_take, Nat.min_eq_left (Nat.le_of_lt within)]
  · intro t member
    obtain ⟨i, inside, rfl⟩ := List.getElem_of_mem member
    have earlier : i < firstEnd tokens := by
      rw [List.length_take] at inside
      omega
    simpa using List.not_of_lt_findIdx earlier

theorem State.reached_of_suffix (suffix : s.rest <:+ tokens) :
    s = .reached tokens (tokens.length - s.rest.length) s.complaints := by
  obtain ⟨rest, complaints⟩ := s
  rw [State.reached, ← List.suffix_iff_eq_drop.mp suffix]

theorem declaration_leaves {found : Option Stmt} (reads : declaration n s = .ok found s') :
    s'.rest <:+ s.rest ∧ ∃ more, s'.complaints = s.complaints ++ more ∧ (found = none → more ≠ []) := by
  have yields : Yields True (declaration n) fun _ ts found _ => Declared True ts found :=
    (yields_statement_declaration n).2
  have here := yields s
  rw [reads] at here
  obtain ⟨more, made, left, derived⟩ := here
  refine ⟨left, more, made, ?_⟩
  rintro rfl quiet
  obtain ⟨ts, -, -, dropped⟩ := derived fun _ => quiet
  exact dropped trivial

section
variable {tokens before : List Token} (whole : tokens.take (before.length + 1) = before ++ [finish.token])
include whole

theorem split_at_end : tokens = before ++ finish.token :: tokens.drop (before.length + 1) := by
  rw [← List.singleton_append, ← List.append_assoc, ← whole, List.take_append_drop]

theorem State.reached_eq {current : Nat} (within : current ≤ before.length) (complaints : List Complaint) :
    State.reached tokens current complaints =
      ⟨before.drop current ++ finish.token :: tokens.drop (before.length + 1), complaints⟩ := by
  unfold State.reached
  nth_rewrite 1 [split_at_end whole]
  rw [List.drop_append_of_le_length within]

variable (inside : ∀ t ∈ before, t.kind ≠ .endOfFile)
include inside

/-- The list of declarations reaches the end of the source. -/
theorem exists_program : ∃ program complaints, ∀ others n,
    others.take (before.length + 1) = tokens.take (before.length + 1) → before.length < n →
      declarations n (.reached others 0 []) = .ok program (.reached others before.length complaints) := by
  obtain ⟨program, complaints, reads⟩ := exists_declarations finish ⟨before, [], inside⟩
  refine ⟨program, complaints, fun others n same enough => ?_⟩
  rw [State.reached_eq (same.trans whole) (Nat.zero_le _), State.reached_eq (same.trans whole) (Nat.le_refl _),
    List.drop_zero, List.drop_length, List.nil_append]
  exact reads n enough _

theorem exists_position {current : Nat} (complaints : List Complaint) (earlier : current < before.length)
    (enough : before.length < current + n) : ∃ found current' more,
      declaration n (.reached tokens current complaints) = .ok found (.reached tokens current' (complaints ++ more)) ∧
      current < current' ∧ current' ≤ before.length ∧ (found = none → more ≠ []) := by
  have left : ∀ t ∈ before.drop current, t.kind ≠ .endOfFile := fun t member => inside t (List.mem_of_mem_drop member)
  have size : Front.size ⟨before.drop current, complaints, left⟩ = before.length - current := List.length_drop
  obtain ⟨found, later, shorter, reads⟩ := exists_declaration finish (by rw [size]; omega)
  have ends := reads n (by rw [size]; omega) (tokens.drop (before.length + 1))
  rw [Front.state, ← State.reached_eq whole (Nat.le_of_lt earlier)] at ends
  obtain ⟨suffix, more, made, complained⟩ := declaration_leaves ends
  have reached := State.reached_of_suffix (suffix.trans (List.drop_suffix current tokens))
  have total : tokens.length = before.length + ((tokens.drop (before.length + 1)).length + 1) := by
    rw [← List.length_cons, ← List.length_append, ← split_at_end whole]
  have rest : (later.state finish (tokens.drop (before.length + 1))).rest.length =
      later.size + ((tokens.drop (before.length + 1)).length + 1) := List.length_append
  have position : tokens.length - (later.state finish (tokens.drop (before.length + 1))).rest.length =
      before.length - later.size := by omega
  refine ⟨found, before.length - later.size, more, ?_, by omega, by omega, complained⟩
  rw [ends, reached, made, position]
  rfl

end

/-- However malformed a list of tokens with an end of the source is, it is read as a program up to the first end. What
stands behind the end makes no difference, and neither does the bound, if it is large enough. A declaration that begins
before the end takes at least one token and none of those from the end on, and is dropped only with a complaint. -/
theorem declarations_reach_firstEnd {tokens : List Token} (hasEnd : ∃ t ∈ tokens, t.kind = .endOfFile) :
    (∃ program complaints, parseProgram tokens = ⟨.ok program, complaints⟩ ∧
      ∀ others n, others.take (firstEnd tokens + 1) = tokens.take (firstEnd tokens + 1) → firstEnd tokens < n →
        declarations n (.reached others 0 []) = .ok program (.reached others (firstEnd tokens) complaints)) ∧
    ∀ n current complaints, current < firstEnd tokens → firstEnd tokens < current + n →
      ∃ found current' more, declaration n (.reached tokens current complaints) =
          .ok found (.reached tokens current' (complaints ++ more)) ∧
        current < current' ∧ current' ≤ firstEnd tokens ∧ (found = none → more ≠ []) := by
  obtain ⟨finish, before, whole, size, inside⟩ := exists_take_firstEnd hasEnd
  rw [← size] at whole ⊢
  constructor
  · obtain ⟨program, complaints, ends⟩ := exists_program whole inside
    have within : before.length < tokens.length := by
      rw [congrArg List.length (split_at_end whole), List.length_append, List.length_cons]
      omega
    refine ⟨program, complaints, ?_, ends⟩
    have start : (⟨tokens, []⟩ : State) = .reached tokens 0 [] := rfl
    rw [parseProgram, Reader.parse, EStateM.run, start, ends tokens tokens.length rfl within]
    rfl
  · intro n current complaints earlier enough
    exact exists_position whole inside complaints earlier enough

/-- Tokens that no program is written with: two closing marks, half a declaration, the end of the source, and a
parenthesis behind it. -/
def strayTokens : List Token :=
  [⟨.rightParen, ")", .nil, 1⟩, ⟨.rightBrace, "\x7d", .nil, 1⟩, ⟨.kwVar, "var", .nil, 2⟩, ⟨.endOfFile, "", .nil, 2⟩,
    ⟨.leftParen, "(", .nil, 3⟩]

theorem declarations_reach_firstEnd_stray :
    (∃ t ∈ strayTokens, t.kind = .endOfFile) ∧ firstEnd strayTokens = 3 ∧
    (∃ program complaints, parseProgram strayTokens = ⟨.ok program, complaints⟩ ∧
      declarations 4 (.reached strayTokens 0 []) = .ok program (.reached strayTokens 3 complaints)) ∧
    ∃ found current' more, declaration 2 (.reached strayTokens 2 []) = .ok found (.reached strayTokens current' more) ∧
      2 < current' ∧ current' ≤ 3 ∧ (found = none → more ≠ []) := by
  have hasEnd : ∃ t ∈ strayTokens, t.kind = .endOfFile := by decide
  obtain ⟨⟨program, complaints, parsed, ends⟩, declared⟩ := declarations_reach_firstEnd hasEnd
  refine ⟨hasEnd, rfl, ⟨program, complaints, parsed, ends strayTokens 4 rfl (by decide)⟩, ?_⟩
  exact declared 2 2 [] (by decide) (by decide)

end LoxLang.Grammar
