import LoxLang.Proofs.Resolving
import LoxLang.Proofs.Segmentation

/-!
What is known of the tokens of a source: words are spelled as their kinds say.
-/

namespace LoxLang

namespace TokenKind

/-- The kinds of tokens other than names, `this`, `super` and the end of a source. -/
def isOther : TokenKind → Bool
  | identifier | kwThis | kwSuper | endOfFile => false
  | _ => true

theorem isOther_ofChar? {c : Char} {kind : TokenKind} (known : ofChar? c = some kind) : kind.isOther = true := by
  unfold ofChar? at known
  split at known <;> cases known <;> rfl

theorem isOther_ofCharWithEqual? {c : Char} {alone withEqual : TokenKind}
    (known : ofCharWithEqual? c = some (alone, withEqual)) : alone.isOther = true ∧ withEqual.isOther = true := by
  unfold ofCharWithEqual? at known
  split at known <;> cases known <;> exact ⟨rfl, rfl⟩

theorem ofWord_eq_keyword {word : String} {kind : TokenKind} (found : ofWord word = kind)
    (keyword : kind ≠ .identifier) : (word, kind) ∈ keywords := by
  unfold ofWord at found
  cases looked : keywords.lookup word with
  | none => exact absurd (by simpa [looked] using found.symm) keyword
  | some other =>
    obtain rfl : other = kind := by simpa [looked] using found
    obtain ⟨before, after, split, -⟩ := List.lookup_eq_some_iff.mp looked
    simp [split]

end TokenKind

/-- A word for a name, `this` or `super` is of the kind that its spelling says. -/
def Token.IsSpelled (t : Token) : Prop := t.kind.isOther = true ∨ t.kind = .ofWord t.lexeme

theorem isSpelled_of_formed {t : Token} {rest : List Char} (formed : (Segment.token t).Formed rest) : t.IsSpelled := by
  cases formed with
  | mark known => exact .inl (TokenKind.isOther_ofChar? known)
  | operator known => exact .inl (TokenKind.isOther_ofCharWithEqual? known).1
  | operatorEqual known => exact .inl (TokenKind.isOther_ofCharWithEqual? known).2
  | slash | string | numeral => exact .inl rfl
  | word => exact .inr rfl

/-- The tokens before the end of a source are spelled as their kinds say. -/
theorem isSpelled_of_mem_read {source : String} {t : Token} (member : t ∈ (scan source).read) : t.IsSpelled :=
  forall_mem_read (fun _ _ => isSpelled_of_formed) source t member

theorem kind_ne_end_of_mem_read {source : String} {t : Token} (member : t ∈ (scan source).read) :
    t.kind ≠ .endOfFile := by
  intro isEnd
  rcases isSpelled_of_mem_read member with other | word
  · rw [isEnd] at other
    cases other
  · have known := TokenKind.ofWord_eq_keyword (word.symm.trans isEnd) (by decide)
    simp [TokenKind.keywords] at known

/-- A name, `this` or `super` is of the kind that its spelling says. -/
theorem kind_eq_ofWord {source : String} {t : Token} (member : t ∈ (scan source).tokens)
    (name : t.kind.isOther = false) (notEnd : t.kind ≠ .endOfFile) : t.kind = .ofWord t.lexeme := by
  have each := forall_mem_tokens (p := fun t => t.IsSpelled ∨ t.kind = .endOfFile)
    (fun _ _ formed => .inl (isSpelled_of_formed formed)) (fun _ => .inr rfl) source t member
  rcases each with (other | word) | isEnd
  · exact nomatch name.symm.trans other
  · exact word
  · exact absurd isEnd notEnd

/-- Names are spelled unlike the keywords `this` and `super`, and these are spelled like themselves. -/
theorem spelled_tokens (source : String) : Scope.Spelled (· ∈ (scan source).tokens) where
  names t member isName := by
    have word : t.kind = .ofWord t.lexeme := kind_eq_ofWord member (by rw [isName]; rfl) (by rw [isName]; decide)
    constructor
    · intro same
      rw [same, isName] at word
      exact nomatch word
    · intro same
      rw [same, isName] at word
      exact nomatch word
  this_ t member isThis := by
    have word : t.kind = .ofWord t.lexeme := kind_eq_ofWord member (by rw [isThis]; rfl) (by rw [isThis]; decide)
    have known := TokenKind.ofWord_eq_keyword (word.symm.trans isThis) (by decide)
    simpa [TokenKind.keywords] using known
  super_ t member isSuper := by
    have word : t.kind = .ofWord t.lexeme := kind_eq_ofWord member (by rw [isSuper]; rfl) (by rw [isSuper]; decide)
    have known := TokenKind.ofWord_eq_keyword (word.symm.trans isSuper) (by decide)
    simpa [TokenKind.keywords] using known

end LoxLang
