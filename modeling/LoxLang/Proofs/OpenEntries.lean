import LoxLang.Prompt
import LoxLang.Proofs.Spelling

/-!
Which entries at the prompt are complete. The prompt counts the characters of the lines as they stand. In a text without
comments it counts what the tokens leave open, and it knows of an open string exactly if one is reported. In other texts
it counts the quotation marks, braces and parentheses in comments, too, while a comment that is still open is nothing to
it.
-/

namespace LoxLang

variable {b : Balance} {c : Char} {text rest : List Char} {s : Segment} {segments : List Segment} {line : String}
  {inputs : List PromptInput}

open Text (isDigit isAlphanumeric)

namespace Balance

/-- Takes one more token. One that closes nothing is ignored. -/
def count (b : Balance) (t : Token) : Balance :=
  match t.kind with
  | .leftBrace => { b with braces := b.braces + 1 }
  | .rightBrace => { b with braces := b.braces - 1 }
  | .leftParen => { b with parens := b.parens + 1 }
  | .rightParen => { b with parens := b.parens - 1 }
  | _ => b

def withString (b : Balance) (inString : Bool) : Balance := ⟨b.braces, b.parens, inString⟩

def marks : List Char := [stringMark, '\x7b', '\x7d', '(', ')']

end Balance

/-- What a source leaves open: braces and parentheses, as its tokens say, and a string if one is reported as such. -/
def Scan.balance (s : Scan) : Balance :=
  (s.tokens.foldl Balance.count .none).withString (s.reports.any (·.message = ScanError.openString.message))

namespace Segment

def isComment : Segment → Bool
  | lineComment _ | blockComment _ | rejected _ _ .openComment => true
  | _ => false

/-- The segment is a string that is never closed. -/
def isOpenString : Segment → Bool
  | rejected _ _ .openString => true
  | _ => false

def code (s : Segment) : List Char := if s.isComment then [] else s.text

end Segment

/-! ### Characters and tokens -/

namespace Balance

theorem withString_eq {inString : Bool} (same : b.inString = inString) : b.withString inString = b := by
  rw [withString, ← same]

theorem feed_of_not_mark (plain : c ∉ marks) (b : Balance) : b.feed c = b := by
  simp only [marks, List.mem_cons, List.not_mem_nil, or_false, not_or] at plain
  simp [feed, plain]

theorem foldl_feed_of_plain (plain : ∀ c ∈ text, c ∉ marks) (b : Balance) : text.foldl feed b = b := by
  induction text with
  | nil => rfl
  | cons _ _ ih =>
    obtain ⟨first, plain⟩ := List.forall_mem_cons.mp plain
    rw [List.foldl_cons, feed_of_not_mark first, ih plain]

theorem not_mark_of_operator {kinds : TokenKind × TokenKind} (known : TokenKind.ofCharWithEqual? c = some kinds) :
    c ∉ marks :=
  notMem_of_class (p := fun c => (TokenKind.ofCharWithEqual? c).isSome) rfl (by rw [known]; rfl)

theorem foldl_feed_inString (inside : stringMark ∉ text) (opened : b.inString = true) : text.foldl feed b = b := by
  induction text with
  | nil => rfl
  | cons c _ ih =>
    obtain ⟨other, inside⟩ := not_or.mp (List.mem_cons.not.mp inside)
    have same : b.feed c = b := by simp [feed, Ne.symm other, opened]
    rw [List.foldl_cons, same, ih inside]

theorem feed_stringMark (b : Balance) : b.feed stringMark = b.withString (!b.inString) := if_pos rfl

/-- A character that is a token by itself counts as the token does. -/
theorem feed_of_ofChar? {kind : TokenKind} (known : TokenKind.ofChar? c = some kind) (outside : b.inString = false)
    {t : Token} (isKind : t.kind = kind) : b.feed c = b.count t := by
  unfold TokenKind.ofChar? at known
  split at known <;> cases known <;> simp [feed, count, isKind, outside, stringMark]

theorem inString_count (b : Balance) (t : Token) : (b.count t).inString = b.inString := by
  unfold count
  split <;> rfl

theorem count_operator (b : Balance) {kinds : TokenKind × TokenKind}
    (known : TokenKind.ofCharWithEqual? c = some kinds) {t : Token} (isKind : t.kind = kinds.1 ∨ t.kind = kinds.2) :
    b.count t = b := by
  unfold TokenKind.ofCharWithEqual? at known
  split at known <;> cases known <;> rcases isKind with isKind | isKind <;> simp [count, isKind]

theorem count_ofWord (b : Balance) {t : Token} {word : String} (isWord : t.kind = .ofWord word) : b.count t = b := by
  have apart : t.kind ∉ [.leftBrace, .rightBrace, .leftParen, .rightParen] := by
    by_cases name : t.kind = .identifier
    · rw [name]
      decide
    · have others : ∀ entry ∈ TokenKind.keywords, entry.2 ∉ [.leftBrace, .rightBrace, .leftParen, .rightParen] := by
        decide
      exact others _ (TokenKind.ofWord_eq_keyword isWord.symm name)
  unfold count
  split <;> simp_all

end Balance

theorem IsNumeral.unmarked (numeral : IsNumeral text rest) : ∀ c ∈ text, c ∉ Balance.marks := by
  intro c member
  rcases numeral.isDigit_or_point member with digit | rfl
  · exact notMem_of_class rfl digit
  · decide +kernel

/-! ### Segments -/

namespace Segment

theorem code_token (t : Token) : (token t).code = t.lexeme.toList := rfl

theorem foldl_feed_of_plain (outside : b.inString = false) (plain : ∀ c ∈ s.code, c ∉ Balance.marks)
    (closed : s.isOpenString = false) (other : ∀ t ∈ s.token?, b.count t = b) :
    s.code.foldl Balance.feed b = (s.token?.toList.foldl Balance.count b).withString s.isOpenString := by
  have same : s.token?.toList.foldl Balance.count b = b := by
    cases isToken : s.token? with
    | none => rfl
    | some t => exact other t isToken
  rw [Balance.foldl_feed_of_plain plain, same, closed, Balance.withString_eq outside]

/-- The characters of a segment that is no comment count as its token does, and as an open string. -/
theorem Formed.foldl_feed (formed : s.Formed rest) (outside : b.inString = false) :
    s.code.foldl Balance.feed b = (s.token?.toList.foldl Balance.count b).withString s.isOpenString := by
  have opens : b.feed stringMark = b.withString true := by rw [Balance.feed_stringMark, outside, Bool.not_false]
  have noToken : ∀ t ∈ (none : Option Token), b.count t = b := by simp
  cases formed with
  | @mark c kind line _ known =>
    let t : Token := ⟨kind, String.ofList [c], .nil, line⟩
    have counts : b.feed c = b.count t := Balance.feed_of_ofChar? known outside rfl
    have still : (b.count t).inString = false := (b.inString_count t).trans outside
    calc (token t).code.foldl Balance.feed b = b.feed c := by rw [code_token, String.toList_ofList]; rfl
      _ = (b.count t).withString false := by rw [counts, Balance.withString_eq still]
  | operator known =>
    refine foldl_feed_of_plain outside ?_ rfl ?_
    · simpa [code_token] using Balance.not_mark_of_operator known
    · rintro _ ⟨⟩
      exact Balance.count_operator b known (.inl rfl)
  | operatorEqual known =>
    have equal : '=' ∉ Balance.marks := by decide
    refine foldl_feed_of_plain outside ?_ rfl ?_
    · simpa [code_token, equal] using Balance.not_mark_of_operator known
    · rintro _ ⟨⟩
      exact Balance.count_operator b known (.inr rfl)
  | slash =>
    have slash : '/' ∉ Balance.marks := by decide
    refine foldl_feed_of_plain outside ?_ rfl ?_
    · simpa [code_token] using slash
    · rintro _ ⟨⟩
      rfl
  | @string body _ _ inside =>
    have within : body.foldl Balance.feed (b.withString true) = b.withString true :=
      Balance.foldl_feed_inString inside rfl
    rw [code_token, String.toList_ofList, List.cons_append, List.foldl_cons, List.foldl_append, opens, within]
    exact Balance.feed_stringMark _
  | numeral digits =>
    refine foldl_feed_of_plain outside ?_ rfl ?_
    · simpa only [code_token, String.toList_ofList] using digits.unmarked
    · rintro _ ⟨⟩
      rfl
  | word _ all =>
    refine foldl_feed_of_plain outside ?_ rfl ?_
    · simpa only [code_token, String.toList_ofList] using
        fun c member => notMem_of_class rfl (all c member)
    · rintro _ ⟨⟩
      exact b.count_ofWord rfl
  | blank isBlank =>
    refine foldl_feed_of_plain outside ?_ rfl noToken
    intro c member
    obtain rfl := List.mem_singleton.mp member
    exact notMem_of_class (p := fun c => [' ', '\r', '\t', '\n'].contains c) rfl (by simpa using isBlank)
  | stray isStray =>
    refine foldl_feed_of_plain outside ?_ rfl noToken
    intro c member
    obtain rfl := List.mem_singleton.mp member
    have other : c ≠ stringMark := fun same => isStray.noLayout (by simp [same])
    exact notMem_of_class (p := fun c => (TokenKind.ofChar? c).isNone && c != stringMark) rfl
      (by simp [isStray.noMark, other])
  | openString inside =>
    calc _ = _ := congrArg (fun b => List.foldl Balance.feed b _) opens
      _ = _ := Balance.foldl_feed_inString inside rfl
  | lineComment | blockComment | openComment =>
    exact foldl_feed_of_plain outside (fun _ member => by cases member) rfl noToken

/-- A string that is never closed reaches to the end of the source. -/
theorem Formed.eq_nil_of_isOpenString (formed : s.Formed rest) (opened : s.isOpenString = true) : rest = [] := by
  cases formed with
  | openString => rfl
  | _ => cases opened

theorem Cut.eq_nil (cut : Cut [] segments) : segments = [] := by
  cases segments with
  | nil => rfl
  | cons s others =>
    have filled := (cut.formed [] s others rfl).text_ne_nil
    exact absurd (List.append_eq_nil_iff.mp cut.flatMap_text.symm).1 filled

/-- The text without comments leaves open what the tokens leave open, and a string if there is an open one. -/
theorem Cut.foldl_feed {source : List Char} (cut : Cut source segments) (outside : b.inString = false) :
    (segments.flatMap code).foldl Balance.feed b =
      ((segments.filterMap token?).foldl Balance.count b).withString (segments.any isOpenString) := by
  induction cut generalizing b with
  | done => exact (Balance.withString_eq outside).symm
  | @more s rest others formed behind ih =>
    rw [List.flatMap_cons, List.foldl_append, formed.foldl_feed outside, List.any_cons]
    cases opened : s.isOpenString with
    | true =>
      obtain rfl := formed.eq_nil_of_isOpenString opened
      obtain rfl := behind.eq_nil
      cases isToken : s.token? <;> simp [isToken]
    | false =>
      -- A token does not open a string, so the others are counted on from outside.
      rw [Bool.false_or]
      cases isToken : s.token? with
      | none =>
        rw [List.filterMap_cons_none isToken, ← ih outside]
        exact congrArg (fun b => List.foldl Balance.feed b _) (Balance.withString_eq outside)
      | some t =>
        have still : (b.count t).inString = false := (b.inString_count t).trans outside
        rw [List.filterMap_cons_some isToken, List.foldl_cons, ← ih still]
        exact congrArg (fun b => List.foldl Balance.feed b _) (Balance.withString_eq still)

theorem any_report?_eq (s : Segment) :
    s.report?.any (·.message = ScanError.openString.message) = s.isOpenString := by
  cases s with
  | rejected _ _ error =>
    cases error with
    | stray =>
      simp only [report?, Option.any_some, isOpenString, decide_eq_false_iff_not]
      intro same
      have first := congrArg (fun text => text.toList.head?) same
      simp [ScanError.message, String.toList_append] at first
    | _ => rfl
  | _ => rfl

end Segment

/-! ### Sources -/

/-- The text of a source without its comments. -/
def Scan.code (s : Scan) : List Char := s.segments.flatMap Segment.code

theorem Scan.foldl_feed_code {source : String} (completes : (scan source).fault = none) :
    (scan source).code.foldl Balance.feed .none = (scan source).balance := by
  have cut : Segment.Cut source.toList (scan source).segments := cut_scanFrom completes
  have reported : (scan source).reports.any (·.message = ScanError.openString.message) =
      (scan source).segments.any Segment.isOpenString := by
    rw [reports, List.any_filterMap]
    congr 1
    funext s
    rw [← s.any_report?_eq]
    cases s.report? <;> rfl
  have ends (b : Balance) : b.count (scan source).endToken = b := rfl
  rw [code, cut.foldl_feed rfl, balance, tokens, completes, reported, Option.isSome_none]
  simp only [Bool.false_eq_true, if_false, List.foldl_append, List.foldl_cons, List.foldl_nil, ends, read]

theorem Balance.foldl_feed_intercalate (lines : List String) (b : Balance) :
    ("\n".intercalate lines).toList.foldl feed b = lines.foldl feedLine b := by
  rw [String.toList_intercalate]
  induction lines generalizing b with
  | nil => rfl
  | cons line rest ih =>
    cases rest with
    | nil => simp [feedLine]
    | cons next rest =>
      have ends (b : Balance) : b.feed '\n' = b := feed_of_not_mark (by decide) b
      have first : "\n".toList.intercalate ((line :: next :: rest).map String.toList) =
          line.toList ++ '\n' :: "\n".toList.intercalate ((next :: rest).map String.toList) := by
        simp [List.intercalate_cons_cons]
      rw [first, List.foldl_append, List.foldl_cons, ends, ih]
      rfl

/-! ### The prompt -/

def PromptInput.ends : PromptInput → Bool
  | .line text => Prompt.trimmed text = Prompt.exitCommand
  | .interrupt => false
  | .endOfInput => true

namespace Prompt

/-- The lines that are not run yet, as one text. -/
def buffer (p : Prompt) : String := "\n".intercalate p.pending

def holding (p : Prompt) (line : String) : Prompt :=
  { p with pending := p.pending ++ [line], balance := p.balance.feedLine line }

/-- A line is skipped if it is blank and no entry has begun. -/
def skips (p : Prompt) (line : String) : Bool := p.pending.isEmpty && (trimmed line).isEmpty

def after (fuel : Nat) (diagrams : Bool) : Prompt → List PromptInput → Prompt
  | p, [] => p
  | p, input :: rest => after fuel diagrams ((p.step fuel diagrams input).turn (some p.text)).2 rest

/-- The prompt in a conversation, when it asks for the next line after some inputs. -/
def asking (fuel : Nat) (diagrams : Bool) (session : Session) (inputs : List PromptInput) : Prompt :=
  after fuel diagrams ((start session).turn none).2 inputs

/-- What is known whenever the prompt asks for a line: what is open in the lines that are not run yet has been counted,
and the first of them is not blank. -/
structure Counted (p : Prompt) : Prop where
  balance : p.balance = p.buffer.toList.foldl Balance.feed .none
  begun : ∀ line ∈ p.pending.head?, (trimmed line).isEmpty = false
  going : p.finished = false

variable {fuel : Nat} {diagrams : Bool} {p : Prompt}

/-- A text is blank if nothing is left of it when blanks are taken from its ends. -/
theorem isEmpty_trimmed_iff {text : String} :
    (trimmed text).isEmpty = true ↔ ∀ c ∈ text.toList, Text.isBlank c = true := by
  have empty : (trimmed text).isEmpty = true ↔ ∀ c ∈ text.toList.dropWhile Text.isBlank, Text.isBlank c = true := by
    simp [trimmed, Text.trimBy]
  rw [empty]
  constructor
  · intro blank
    by_contra filled
    have first := List.head_dropWhile_not Text.isBlank (mt List.dropWhile_eq_nil_iff.mp filled)
    rw [blank _ (List.head_mem _)] at first
    cases first
  · exact fun blank c member => blank c ((List.dropWhile_sublist _).subset member)

theorem balance_holding (counted : p.Counted) (line : String) :
    (p.holding line).balance = (p.holding line).buffer.toList.foldl Balance.feed .none := by
  have lines := counted.balance.trans (Balance.foldl_feed_intercalate p.pending .none)
  rw [buffer, Balance.foldl_feed_intercalate, holding, List.foldl_append, ← lines]
  rfl

theorem buffer_not_blank (begun : ∀ line ∈ p.pending.head?, (trimmed line).isEmpty = false) (filled : p.pending ≠ []) :
    (trimmed p.buffer).isEmpty = false := by
  obtain ⟨first, rest, split⟩ := List.exists_cons_of_ne_nil filled
  have notBlank := begun first (by rw [split]; rfl)
  rw [← Bool.not_eq_true, isEmpty_trimmed_iff] at notBlank ⊢
  intro blank
  refine notBlank fun c member => blank c ?_
  rw [buffer, split, String.toList_intercalate, List.map_cons]
  cases rest <;> simp [List.intercalate_cons_cons, member]

theorem begun_holding (counted : p.Counted) (kept : p.skips line = false) :
    ∀ first ∈ (p.holding line).pending.head?, (trimmed first).isEmpty = false := by
  intro first isFirst
  cases pending : p.pending with
  | nil =>
    obtain rfl : line = first := by simpa [holding, pending] using isFirst
    simpa [skips, pending] using kept
  | cons begun => exact counted.begun first (by simpa [holding, pending] using isFirst)

/-- A line that is not skipped is held, and the entry is run if nothing is open in it. -/
theorem step_line (counted : p.Counted) (goes : (PromptInput.line line).ends = false) (kept : p.skips line = false) :
    p.step fuel diagrams (.line line) =
      if (p.holding line).balance.isClosed then
        ((p.holding line).submit fuel diagrams (trimmed (p.holding line).buffer)).clear
      else p.holding line := by
  have ends : ¬ trimmed line = exitCommand := of_decide_eq_false goes
  have stays : ¬ (p.pending.isEmpty && (trimmed line).isEmpty) = true := Bool.eq_false_iff.mp kept
  have filled : (trimmed ("\n".intercalate (p.pending ++ [line]))).isEmpty = false :=
    buffer_not_blank (p := p.holding line) (begun_holding counted kept) (by simp [holding])
  simp only [step, if_neg ends, if_neg stays, takeLine, filled, Bool.false_eq_true, if_false]
  rfl

theorem step_of_skips (goes : (PromptInput.line line).ends = false) (skipped : p.skips line = true) :
    p.step fuel diagrams (.line line) = p := by
  have ends : ¬ trimmed line = exitCommand := of_decide_eq_false goes
  rw [step, if_neg ends]
  exact if_pos skipped

theorem Counted.of_clear (going : p.finished = false) : p.clear.Counted :=
  ⟨rfl, fun _ first => (by cases first), going⟩

theorem Counted.step (counted : p.Counted) {input : PromptInput} (goes : input.ends = false) :
    (p.step fuel diagrams input).Counted := by
  cases input with
  | endOfInput => cases goes
  | interrupt => exact ⟨rfl, fun _ first => (by cases first), counted.going⟩
  | line line =>
    cases skipped : p.skips line with
    | true => rwa [step_of_skips goes skipped]
    | false =>
      rw [step_line counted goes skipped]
      split
      · exact .of_clear counted.going
      · exact ⟨balance_holding counted line, begun_holding counted skipped, counted.going⟩

theorem Counted.turn (counted : p.Counted) (prompt : Option String) : (p.turn prompt).2.Counted :=
  ⟨counted.balance, counted.begun, counted.going⟩

theorem Counted.after (counted : p.Counted) (goes : ∀ input ∈ inputs, input.ends = false) :
    (p.after fuel diagrams inputs).Counted := by
  induction inputs generalizing p with
  | nil => exact counted
  | cons _ _ ih =>
    obtain ⟨first, goes⟩ := List.forall_mem_cons.mp goes
    exact ih ((counted.step first).turn _) goes

theorem counted_asking (session : Session) (goes : ∀ input ∈ inputs, input.ends = false) :
    (asking fuel diagrams session inputs).Counted :=
  Counted.after ⟨rfl, fun _ first => (by cases first), rfl⟩ goes

theorem foldl_feed_comments (plain : ∀ s ∈ segments, s.isComment = true → ∀ c ∈ s.text, c ∉ Balance.marks)
    (b : Balance) :
    (segments.flatMap Segment.text).foldl Balance.feed b = (segments.flatMap Segment.code).foldl Balance.feed b := by
  induction segments generalizing b with
  | nil => rfl
  | cons s others ih =>
    obtain ⟨first, plain⟩ := List.forall_mem_cons.mp plain
    rw [List.flatMap_cons, List.flatMap_cons, List.foldl_append, List.foldl_append, ih plain, Segment.code]
    split
    · rename_i comment
      rw [Balance.foldl_feed_of_plain (first comment)]
      rfl
    · rfl

/-- Comments hold up the prompt. Whenever a conversation has come to the next line, that line completes the entry
exactly if nothing is open in the text of the lines with all that stands in comments, while it is in the text without
comments that as much is open as the tokens leave open. So the prompt agrees with the tokens if no quotation mark, brace
or parenthesis stands in a comment; then a block comment that is still open does not hold up the entry. -/
theorem comments_hold_up_entries (fuel : Nat) (diagrams : Bool) (session : Session) (inputs : List PromptInput)
    (line : String) (goes : ∀ input ∈ inputs ++ [.line line], input.ends = false) :
    let p := asking fuel diagrams session inputs
    let q := p.holding line
    p.skips line = false → (scan q.buffer).fault = none →
      p.step fuel diagrams (.line line) =
        (if (q.buffer.toList.foldl Balance.feed .none).isClosed then
          (q.submit fuel diagrams (trimmed q.buffer)).clear else q) ∧
      (scan q.buffer).code.foldl Balance.feed .none = (scan q.buffer).balance ∧
      ((∀ s ∈ (scan q.buffer).segments, s.isComment = true → ∀ c ∈ s.text, c ∉ Balance.marks) →
        p.step fuel diagrams (.line line) =
          if (scan q.buffer).balance.isClosed then (q.submit fuel diagrams (trimmed q.buffer)).clear else q) := by
  intro p q kept completes
  obtain ⟨before, last⟩ := List.forall_mem_append.mp goes
  have counted : p.Counted := counted_asking session before
  have taken : p.step fuel diagrams (.line line) = _ := step_line counted (last _ List.mem_cons_self) kept
  rw [balance_holding counted line] at taken
  have code := Scan.foldl_feed_code completes
  refine ⟨taken, code, ?_⟩
  intro plain
  have cut : Segment.Cut q.buffer.toList (scan q.buffer).segments := cut_scanFrom completes
  have same : q.buffer.toList.foldl Balance.feed .none = (scan q.buffer).balance := by
    rw [cut.flatMap_text, foldl_feed_comments plain, ← code]
    rfl
  rw [taken, ← same]

/-- The quotation mark in the comment holds up an entry whose tokens are balanced. The entry with a block comment that
is still open is run. -/
theorem comments_hold_up_entries_mark :
    let p := asking 0 false (.start (.start {} {})) []
    (scan "print 1; // \"").balance.isClosed = true ∧
      p.step 0 false (.line "print 1; // \"") = p.holding "print 1; // \"" ∧
      (scan "print 1; /*").reports.length = 1 ∧
      p.step 0 false (.line "print 1; /*") = ((p.holding "print 1; /*").submit 0 false "print 1; /*").clear := by
  intro p
  obtain ⟨held, -⟩ := comments_hold_up_entries 0 false (.start (.start {} {})) [] "print 1; // \"" (by decide +kernel)
    (by decide +kernel) (by decide +kernel)
  obtain ⟨run, -⟩ := comments_hold_up_entries 0 false (.start (.start {} {})) [] "print 1; /*" (by decide +kernel)
    (by decide +kernel) (by decide +kernel)
  have opened : ((p.holding "print 1; // \"").buffer.toList.foldl Balance.feed .none).isClosed = false := by
    decide +kernel
  have closed : ((p.holding "print 1; /*").buffer.toList.foldl Balance.feed .none).isClosed = true := by decide +kernel
  have whole : trimmed (p.holding "print 1; /*").buffer = "print 1; /*" := by decide +kernel
  refine ⟨by decide +kernel, ?_, by decide +kernel, ?_⟩
  · exact held.trans (if_neg (Bool.eq_false_iff.mp opened))
  · exact (run.trans (if_pos closed)).trans (by rw [whole])

end Prompt
end LoxLang
