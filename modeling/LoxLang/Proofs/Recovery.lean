import LoxLang.Proofs.Progress
import LoxLang.Proofs.Spelling

/-!
Where reading goes on after an error. A declaration that cannot be read is dropped up to the next semicolon or the next
token that seems to begin a statement. Among the kinds of these tokens is one that no source has, where the keyword of
functions would be expected. So a function behind an error is passed over, unless a semicolon stands before it.
-/

namespace LoxLang.Grammar

def kindAt (tokens : List Token) (p : Nat) : Option TokenKind := tokens[p]?.map Token.kind

/-- Reading can go on at a position: the source ends there, a semicolon stands before it, or one of the kinds there. -/
def resumes (kinds : List TokenKind) (tokens : List Token) (p : Nat) : Bool :=
  (kindAt tokens p).any fun kind => kind = .endOfFile || kindAt tokens (p - 1) = some .semicolon || kind ∈ kinds

/-- Where reading goes on after an error at position `e`: there, if the source ends there, and else at the first
position behind it at which it can go on. -/
def GoesOnAt (kinds : List TokenKind) (tokens : List Token) (e p : Nat) : Prop :=
  if kindAt tokens e = some .endOfFile then p = e else IsLeast {q | e < q ∧ resumes kinds tokens q = true} p

/-- The keywords that begin a declaration or a statement, but for those of traits and of breaks. -/
def openingKinds : List TokenKind :=
  [.kwClass, .kwFun, .kwVar, .kwFor, .kwIf, .kwWhile, .kwPrint, .kwReturn]

variable {tokens : List Token} {kinds : List TokenKind} {e p q : Nat}

/-! ### The first position at which reading can go on -/

theorem kindAt_eq_some {kind : TokenKind} : kindAt tokens p = some kind ↔ ∃ t, tokens[p]? = some t ∧ t.kind = kind :=
  Option.map_eq_some_iff

theorem lt_length_of_resumes (resumed : resumes kinds tokens p = true) : p < tokens.length := by
  obtain ⟨kind, here, -⟩ := (Option.any_eq_true _ _).mp resumed
  obtain ⟨t, found, -⟩ := kindAt_eq_some.mp here
  exact (List.getElem?_eq_some_iff.mp found).1

theorem resumes_succ {last t : Token} (before : tokens[e]? = some last) (here : tokens[e + 1]? = some t) :
    resumes kinds tokens (e + 1) = (t.kind = .endOfFile || last.kind = .semicolon || t.kind ∈ kinds) := by
  simp [resumes, kindAt, before, here]

/-- If reading cannot go on right behind a position, the search goes on from there. -/
theorem isLeast_succ (passed : resumes kinds tokens (e + 1) = false) :
    IsLeast {q | e < q ∧ resumes kinds tokens q = true} p ↔
      IsLeast {q | e + 1 < q ∧ resumes kinds tokens q = true} p := by
  have same : {q | e < q ∧ resumes kinds tokens q = true} = {q | e + 1 < q ∧ resumes kinds tokens q = true} := by
    ext q
    constructor
    · rintro ⟨behind, resumed⟩
      have other : q ≠ e + 1 := by
        rintro rfl
        rw [passed] at resumed
        cases resumed
      exact ⟨by omega, resumed⟩
    · rintro ⟨behind, resumed⟩
      exact ⟨by omega, resumed⟩
  rw [same]

theorem isLeast_of_resumes (resumed : resumes kinds tokens (e + 1) = true) :
    IsLeast {q | e < q ∧ resumes kinds tokens q = true} (e + 1) :=
  ⟨⟨Nat.lt_succ_self e, resumed⟩, fun _ behind => behind.1⟩

/-- What is kept after an error are the tokens from the first position on at which reading can go on, by induction on
the tokens behind the one that was dropped last. -/
theorem restart_eq {last : Token} {rest : List Token} (split : tokens.drop e = last :: rest) :
    (∀ p, IsLeast {q | e < q ∧ resumes restartKinds tokens q = true} p → restart last rest = tokens.drop p) ∧
      ((∀ q, e < q → resumes restartKinds tokens q = false) → restart last rest = []) := by
  induction rest generalizing e last with
  | nil =>
    have length : tokens.length = e + 1 := by
      have := congrArg List.length split
      simp only [List.length_drop, List.length_cons, List.length_nil] at this
      omega
    refine ⟨?_, fun _ => rfl⟩
    rintro p ⟨⟨behind, resumed⟩, -⟩
    have := lt_length_of_resumes resumed
    omega
  | cons t rest ih =>
    have before : tokens[e]? = some last := by rw [← List.head?_drop, split]; rfl
    have next : tokens.drop (e + 1) = t :: rest := by rw [← List.tail_drop, split]; rfl
    have here : tokens[e + 1]? = some t := by rw [← List.head?_drop, next]; rfl
    have stays : resumes restartKinds tokens (e + 1) = _ := resumes_succ before here
    by_cases resumed : resumes restartKinds tokens (e + 1) = true
    · have kept : restart last (t :: rest) = t :: rest := by
        rw [restart, if_pos (stays ▸ resumed)]
      constructor
      · intro p least
        rw [kept, least.unique (isLeast_of_resumes resumed), next]
      · intro nowhere
        rw [nowhere (e + 1) (Nat.lt_succ_self e)] at resumed
        cases resumed
    · have passed : resumes restartKinds tokens (e + 1) = false := by simpa using resumed
      have dropped : restart last (t :: rest) = restart t rest := by
        rw [restart, if_neg (stays ▸ resumed)]
      obtain ⟨found, unfound⟩ := ih next
      constructor
      · intro p least
        rw [dropped]
        exact found p ((isLeast_succ passed).mp least)
      · intro nowhere
        rw [dropped]
        exact unfound fun q behind => nowhere q (by omega)

/-! ### Where reading goes on -/

theorem goesOnAt_of_end (atEnd : kindAt tokens e = some .endOfFile) : GoesOnAt kinds tokens e p ↔ p = e := by
  rw [GoesOnAt, if_pos atEnd]

theorem goesOnAt_of_inside (inside : kindAt tokens e ≠ some .endOfFile) :
    GoesOnAt kinds tokens e p ↔ IsLeast {q | e < q ∧ resumes kinds tokens q = true} p := by
  rw [GoesOnAt, if_neg inside]

theorem exists_goesOnAt_of_resumes (inside : kindAt tokens e ≠ some .endOfFile)
    (somewhere : ∃ q, e < q ∧ resumes kinds tokens q = true) : ∃ p, GoesOnAt kinds tokens e p := by
  refine ⟨Nat.find somewhere, (goesOnAt_of_inside inside).mpr ⟨Nat.find_spec somewhere, ?_⟩⟩
  exact fun q resumed => Nat.find_min' somewhere resumed

theorem exists_goesOnAt (hasEnd : ∃ i, e ≤ i ∧ kindAt tokens i = some .endOfFile) (kinds : List TokenKind) :
    ∃ p, GoesOnAt kinds tokens e p := by
  by_cases atEnd : kindAt tokens e = some .endOfFile
  · exact ⟨e, (goesOnAt_of_end atEnd).mpr rfl⟩
  · obtain ⟨i, later, isEnd⟩ := hasEnd
    have behind : e < i := by
      rcases Nat.lt_or_eq_of_le later with behind | rfl
      · exact behind
      · exact absurd isEnd atEnd
    exact exists_goesOnAt_of_resumes atEnd ⟨i, behind, by simp [resumes, isEnd]⟩

/-- Dropping what could not be read leads to the position at which reading goes on, and stops for good if there is
none. -/
theorem recover_reached (tokens : List Token) (e : Nat) (complaints : List Complaint) :
    (∀ p, GoesOnAt restartKinds tokens e p →
      recover (.reached tokens e complaints) = .ok () (.reached tokens p complaints)) ∧
    ((∀ p, ¬ GoesOnAt restartKinds tokens e p) →
      recover (.reached tokens e complaints) = .error .noTokens ⟨[], complaints⟩) := by
  cases split : tokens.drop e with
  | nil =>
    have beyond : tokens.length ≤ e := List.drop_eq_nil_iff.mp split
    have nowhere : kindAt tokens e = none := by simp [kindAt, beyond]
    constructor
    · intro p goesOn
      obtain ⟨behind, resumed⟩ := ((goesOnAt_of_inside (by simp [nowhere])).mp goesOn).1
      have := lt_length_of_resumes resumed
      omega
    · intro _
      simp only [recover, State.reached, split]
  | cons t =>
    have here : kindAt tokens e = some t.kind := by
      rw [kindAt, ← List.head?_drop, split]
      rfl
    by_cases isEnd : t.kind = .endOfFile
    · have atEnd : kindAt tokens e = some .endOfFile := by rw [here, isEnd]
      constructor
      · intro p goesOn
        rw [(goesOnAt_of_end atEnd).mp goesOn]
        simp only [recover, State.reached, split, if_pos isEnd]
      · intro nowhere
        exact absurd ((goesOnAt_of_end atEnd).mpr rfl) (nowhere e)
    · have inside : kindAt tokens e ≠ some .endOfFile := by simp [here, isEnd]
      obtain ⟨found, unfound⟩ := restart_eq split
      constructor
      · intro p goesOn
        have least := (goesOnAt_of_inside inside).mp goesOn
        have within := lt_length_of_resumes least.1.2
        simp only [recover, State.reached, split, if_neg isEnd, found p least]
        cases kept : tokens.drop p with
        | nil => exact absurd (List.drop_eq_nil_iff.mp kept) (by omega)
        | cons => rfl
      · intro nowhere
        have passed : ∀ q, e < q → resumes restartKinds tokens q = false := by
          intro q behind
          by_contra resumed
          obtain ⟨p, goesOn⟩ := exists_goesOnAt_of_resumes inside ⟨q, behind, by simpa using resumed⟩
          exact nowhere p goesOn
        simp only [recover, State.reached, split, if_neg isEnd, unfound passed]

/-! ### Functions behind an error -/

theorem mem_openingKinds {kind : TokenKind} (member : kind ∈ restartKinds) :
    kind ∈ openingKinds ∨ kind = .kwFunction := by
  revert kind
  decide

theorem mem_restartKinds {kind : TokenKind} (member : kind ∈ openingKinds) :
    kind ∈ restartKinds ∨ kind = .kwFun := by
  revert kind
  decide

/-- Where reading can go on for some kinds but not for others, there stands one of the kinds that are not among the
others. -/
theorem resumes_or_kindAt {others : List TokenKind} {odd : TokenKind}
    (known : ∀ kind ∈ kinds, kind ∈ others ∨ kind = odd) (resumed : resumes kinds tokens p = true) :
    resumes others tokens p = true ∨ kindAt tokens p = some odd := by
  obtain ⟨kind, here, reason⟩ := (Option.any_eq_true _ _).mp resumed
  simp only [Bool.or_eq_true, decide_eq_true_eq] at reason
  rcases reason with cause | member
  · left
    simp only [resumes, Option.mem_def.mp here, Option.any_some, Bool.or_eq_true, decide_eq_true_eq]
    exact .inl cause
  · rcases known kind member with member | rfl
    · left
      simp [resumes, Option.mem_def.mp here, member]
    · exact .inr here

theorem resumes_of_kindAt {kind : TokenKind} (here : kindAt tokens p = some kind) (member : kind ∈ kinds) :
    resumes kinds tokens p = true := by
  simp [resumes, here, member]

/-- Reading goes on at the same position for two choices of kinds exactly if, on the way to it, none of the kinds is
passed over that only the other choice has. -/
theorem goesOnAt_eq_iff (coded : GoesOnAt restartKinds tokens e p) (stated : GoesOnAt openingKinds tokens e q) :
    p = q ↔ (∀ i, e < i → i < p → kindAt tokens i ≠ some .kwFun) ∧
      ∀ i, e < i → i < q → kindAt tokens i ≠ some .kwFunction := by
  by_cases atEnd : kindAt tokens e = some .endOfFile
  · obtain rfl := (goesOnAt_of_end atEnd).mp coded
    obtain rfl := (goesOnAt_of_end atEnd).mp stated
    exact ⟨fun _ => ⟨fun i _ _ => by omega, fun i _ _ => by omega⟩, fun _ => rfl⟩
  · rw [goesOnAt_of_inside atEnd] at coded stated
    constructor
    · rintro rfl
      constructor
      · intro i behind before isFun
        have := stated.2 ⟨behind, resumes_of_kindAt isFun (by decide)⟩
        omega
      · intro i behind before isFunction
        have := coded.2 ⟨behind, resumes_of_kindAt isFunction (by decide)⟩
        omega
    · rintro ⟨noFun, noFunction⟩
      rcases Nat.lt_trichotomy p q with before | same | before
      · rcases resumes_or_kindAt (fun _ => mem_openingKinds) coded.1.2 with resumed | isFunction
        · have := stated.2 ⟨coded.1.1, resumed⟩
          omega
        · exact absurd isFunction (noFunction p coded.1.1 before)
      · exact same
      · rcases resumes_or_kindAt (fun _ => mem_restartKinds) stated.1.2 with resumed | isFun
        · have := coded.2 ⟨stated.1.1, resumed⟩
          omega
        · exact absurd isFun (noFun q stated.1.1 before)

/-! ### The kind that no source has -/

theorem kind_ne_function_of_formed {t : Token} {rest : List Char} (formed : (Segment.token t).Formed rest) :
    t.kind ≠ .kwFunction := by
  cases formed with
  | mark known =>
    rintro rfl
    unfold TokenKind.ofChar? at known
    split at known <;> cases known
  | operator known | operatorEqual known =>
    rintro rfl
    unfold TokenKind.ofCharWithEqual? at known
    split at known <;> cases known
  | word =>
    intro isFunction
    have known := TokenKind.ofWord_eq_keyword isFunction (by decide)
    simp [TokenKind.keywords] at known
  | slash | string | numeral =>
    intro isFunction
    cases isFunction

/-- No word of a source is of the kind that reading would go on at. -/
theorem kind_ne_function_of_mem_tokens (source : String) : ∀ t ∈ (scan source).tokens, t.kind ≠ .kwFunction :=
  forall_mem_tokens (fun _ _ => kind_ne_function_of_formed) (fun _ same => by cases same) source

/-- Where reading goes on after an error, for all tokens and every position. A declaration that stops at an error is
dropped, and reading goes on at the first position behind the error at which it can, at the end of the source at the
latest; it stops for good if there is no end. This is the first position at which a semicolon has gone before, or a
keyword opens a declaration or a statement, exactly if no function has been passed over on the way, and no token of the
kind that takes the place of functions comes before. Sources have no tokens of that kind. -/
theorem recovery_passes_functions (tokens : List Token) (e : Nat) (complaints : List Complaint) :
    (∀ p, GoesOnAt restartKinds tokens e p →
      recover (.reached tokens e complaints) = .ok () (.reached tokens p complaints) ∧
      ∀ n s error token, declarationWith (statement n) (declaration n) (n + 1) s =
          .error (.reported error token) (.reached tokens e complaints) →
        declaration (n + 1) s = .ok none (.reached tokens p complaints)) ∧
    ((∀ p, ¬ GoesOnAt restartKinds tokens e p) →
      recover (.reached tokens e complaints) = .error .noTokens ⟨[], complaints⟩) ∧
    ((∃ i, e ≤ i ∧ kindAt tokens i = some .endOfFile) → ∀ kinds, ∃ p, GoesOnAt kinds tokens e p) ∧
    (∀ p q, GoesOnAt restartKinds tokens e p → GoesOnAt openingKinds tokens e q →
      (p = q ↔ (∀ i, e < i → i < p → kindAt tokens i ≠ some .kwFun) ∧
        ∀ i, e < i → i < q → kindAt tokens i ≠ some .kwFunction)) ∧
    ∀ source, ∀ t ∈ (scan source).tokens, t.kind ≠ .kwFunction := by
  obtain ⟨found, unfound⟩ := recover_reached tokens e complaints
  refine ⟨?_, unfound, exists_goesOnAt, fun p q => goesOnAt_eq_iff, kind_ne_function_of_mem_tokens⟩
  intro p goesOn
  refine ⟨found p goesOn, ?_⟩
  intro n s error token stopped
  exact orRecover_of_reported stopped (found p goesOn)

/-- The tokens of `var )`, a function `f` and `print nil;`. -/
def unfinishedTokens : List Token :=
  [⟨.kwVar, "var", .nil, 1⟩, ⟨.rightParen, ")", .nil, 1⟩, ⟨.kwFun, "fun", .nil, 2⟩, ⟨.identifier, "f", .nil, 2⟩,
    ⟨.leftParen, "(", .nil, 2⟩, ⟨.rightParen, ")", .nil, 2⟩, ⟨.leftBrace, "\x7b", .nil, 2⟩,
    ⟨.rightBrace, "\x7d", .nil, 2⟩, ⟨.kwPrint, "print", .nil, 3⟩, ⟨.kwNil, "nil", .nil, 3⟩,
    ⟨.semicolon, ";", .nil, 3⟩, ⟨.endOfFile, "", .nil, 3⟩]

theorem goesOnAt_unfinished {kinds : List TokenKind} {p : Nat} (behind : 1 < p)
    (resumed : resumes kinds unfinishedTokens p = true)
    (passed : ∀ q < p, 1 < q → resumes kinds unfinishedTokens q = false) : GoesOnAt kinds unfinishedTokens 1 p := by
  refine (goesOnAt_of_inside (by decide)).mpr ⟨⟨behind, resumed⟩, ?_⟩
  rintro q ⟨later, resumes⟩
  by_contra earlier
  rw [passed q (by omega) later] at resumes
  cases resumes

/-- The error is at the second token, and a function begins right behind it; but reading goes on behind the function. -/
theorem function_passed_over_unfinished :
    GoesOnAt openingKinds unfinishedTokens 1 2 ∧ kindAt unfinishedTokens 2 = some .kwFun ∧
      GoesOnAt restartKinds unfinishedTokens 1 8 ∧
      (∃ complaints, declaration 12 (.reached unfinishedTokens 0 []) =
        .ok none (.reached unfinishedTokens 8 complaints)) ∧
      ¬ ∀ i, 1 < i → i < 8 → kindAt unfinishedTokens i ≠ some .kwFun := by
  have stated : GoesOnAt openingKinds unfinishedTokens 1 2 := goesOnAt_unfinished (by decide) (by decide) (by decide)
  have coded : GoesOnAt restartKinds unfinishedTokens 1 8 := goesOnAt_unfinished (by decide) (by decide) (by decide)
  have stopped : declarationWith (statement 11) (declaration 11) 12 (.reached unfinishedTokens 0 []) =
      .error (.reported _ _) (.reached unfinishedTokens 1 _) := rfl
  obtain ⟨goesOn, -, -, same, -⟩ := recovery_passes_functions unfinishedTokens 1 _
  refine ⟨stated, rfl, coded, ⟨_, (goesOn 8 coded).2 11 _ _ _ stopped⟩, ?_⟩
  intro noFun
  have equal : (8 : Nat) = 2 := (same 8 2 coded stated).mpr ⟨noFun, fun i _ _ => by omega⟩
  cases equal

end LoxLang.Grammar
