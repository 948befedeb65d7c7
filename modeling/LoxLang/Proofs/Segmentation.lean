import LoxLang.Proofs.BlockComments

/-!
Nothing in a source is passed over. A source that is read to its end is the text of its segments, one behind the other.
Every segment is of one of a few forms: a token, which no following character would extend, a blank, a comment, or a
piece that is reported. Only what is never closed, a string or a block comment, reaches to the end of the source, and
each of the reported pieces is reported once. What a step of the reading takes has one of the forms, and what has one of
the forms and is not reported is taken in one step.
-/

namespace LoxLang

variable {rest source : List Char} {c : Char} {pos : Cursor} {segments : List Segment}

open Text (isDigit isAlphanumeric)

/-- A numeral with what follows it: digits, and a point only if digits follow it. -/
inductive IsNumeral : List Char → List Char → Prop where
  | whole {digits rest : List Char} (filled : digits ≠ []) (all : ∀ c ∈ digits, isDigit c = true)
      (ends : ∀ c ∈ rest.head?, isDigit c = false)
      (noFraction : ∀ c more, rest = '.' :: c :: more → isDigit c = false) : IsNumeral digits rest
  | fraction {digits decimals rest : List Char} (filled : digits ≠ []) (more : decimals ≠ [])
      (all : ∀ c ∈ digits ++ decimals, isDigit c = true) (ends : ∀ c ∈ rest.head?, isDigit c = false) :
      IsNumeral (digits ++ '.' :: decimals) rest

variable {text : List Char}

theorem IsNumeral.isDigit_or_point (numeral : IsNumeral text rest) (member : c ∈ text) :
    isDigit c = true ∨ c = '.' := by
  cases numeral with
  | whole _ all => exact .inl (all c member)
  | fraction _ _ all =>
    simp only [List.mem_append, List.mem_cons] at member all
    grind

theorem IsNumeral.isDigit_head (numeral : IsNumeral text rest) (begins : c :: source = text ++ rest) :
    isDigit c = true := by
  cases numeral with
  | whole filled all | fraction filled _ all =>
    obtain ⟨d, more, rfl⟩ := List.exists_cons_of_ne_nil filled
    cases begins
    exact all c (by simp)

/-- No token, blank, comment or string begins with the character. -/
structure IsStray (c : Char) : Prop where
  noMark : TokenKind.ofChar? c = none
  noOperator : TokenKind.ofCharWithEqual? c = none
  noLayout : c ∉ ['/', ' ', '\r', '\t', '\n', stringMark]
  noDigit : isDigit c = false
  noLetter : isAlphanumeric c = false

namespace Segment

/-- The segment has one of the forms of segments, in front of the rest of the source. -/
inductive Formed : Segment → List Char → Prop where
  | mark {c : Char} {kind : TokenKind} {line : Nat} {rest : List Char} (known : TokenKind.ofChar? c = some kind) :
      Formed (.token ⟨kind, String.ofList [c], .nil, line⟩) rest
  | operator {c : Char} {alone withEqual : TokenKind} {line : Nat} {rest : List Char}
      (known : TokenKind.ofCharWithEqual? c = some (alone, withEqual)) (single : rest.head? ≠ some '=') :
      Formed (.token ⟨alone, String.ofList [c], .nil, line⟩) rest
  | operatorEqual {c : Char} {alone withEqual : TokenKind} {line : Nat} {rest : List Char}
      (known : TokenKind.ofCharWithEqual? c = some (alone, withEqual)) :
      Formed (.token ⟨withEqual, String.ofList [c, '='], .nil, line⟩) rest
  | slash {line : Nat} {rest : List Char} (noComment : ∀ c ∈ rest.head?, c ≠ '/' ∧ c ≠ '*') :
      Formed (.token ⟨.slash, String.ofList ['/'], .nil, line⟩) rest
  | string {body : List Char} {line : Nat} {rest : List Char} (inside : stringMark ∉ body) :
      Formed (.token ⟨.string, String.ofList (stringMark :: body ++ [stringMark]), .string (String.ofList body), line⟩)
        rest
  | numeral {text : List Char} {value : Float} {line : Nat} {rest : List Char} (digits : IsNumeral text rest)
      (known : Number.read? (String.ofList text) = some value) :
      Formed (.token ⟨.number, String.ofList text, .number value, line⟩) rest
  | word {c : Char} {more : List Char} {line : Nat} {rest : List Char} (noDigit : isDigit c = false)
      (all : ∀ d ∈ c :: more, isAlphanumeric d = true) (ends : ∀ d ∈ rest.head?, isAlphanumeric d = false) :
      Formed (.token ⟨.ofWord (String.ofList (c :: more)), String.ofList (c :: more), .nil, line⟩) rest
  | blank {c : Char} {rest : List Char} (isBlank : c ∈ [' ', '\r', '\t', '\n']) : Formed (.blank c) rest
  | lineComment {text rest : List Char} (oneLine : '\n' ∉ text) (ends : ∀ c ∈ rest.head?, c = '\n') :
      Formed (.lineComment ('/' :: '/' :: text)) rest
  | blockComment {text rest : List Char} (closed : closesAfter? 0 (blotted 0 text) = some text.length) :
      Formed (.blockComment ('/' :: '*' :: text)) rest
  | stray {c : Char} {line column : Nat} {rest : List Char} (isStray : IsStray c) :
      Formed (.rejected [c] line (.stray c column)) rest
  | openString {body : List Char} {line : Nat} (inside : stringMark ∉ body) :
      Formed (.rejected (stringMark :: body) line .openString) []
  | openComment {text : List Char} {line : Nat} (unclosed : closesAfter? 0 (blotted 0 text) = none) :
      Formed (.rejected ('/' :: '*' :: text) line .openComment) []

/-- The text is cut into the segments, each formed in front of those that follow. -/
inductive Cut : List Char → List Segment → Prop where
  | done : Cut [] []
  | more {s : Segment} {rest : List Char} {others : List Segment} (formed : s.Formed rest) (behind : Cut rest others) :
      Cut (s.text ++ rest) (s :: others)

/-- The segments with the positions at which they begin, the first one at `start`. -/
def placed (start : Nat) : List Segment → List (Nat × Segment)
  | [] => []
  | s :: others => (start, s) :: placed (start + s.text.length) others

/-- The segment is reported. -/
def isRejected : Segment → Bool
  | .rejected .. => true
  | _ => false

/-- The tokens and the reports of a segment tell where the segment ends. -/
def Told (after : Cursor) : Segment → Prop
  | token t => t.line = after.line
  | rejected text line error => line = after.line ∧ ∀ c column, error = .stray c column → text = [c] ∧ column = after.column
  | _ => True

/-- The segment on another line. -/
def onLine (line : Nat) : Segment → Segment
  | token t => token { t with line := line }
  | s => s

theorem Told.onLine_eq {s : Segment} {after : Cursor} (told : s.Told after) : s.onLine after.line = s := by
  cases s with
  | token t => exact congrArg (fun line => token { t with line := line }) (Eq.symm told)
  | _ => rfl

end Segment

namespace Cursor

/-- After a segment. -/
def past (pos : Cursor) : Segment → Cursor
  | .blank c => if c = '\n' then pos.nextLine else pos.forward 1
  | s => pos.withinAll s.text

theorem past_onLine (pos : Cursor) (s : Segment) (line : Nat) : pos.past (s.onLine line) = pos.past s := by
  cases s <;> rfl

theorem withinAll_of_plain (pos : Cursor) (plain : '\n' ∉ text) : pos.withinAll text = pos.forward text.length := by
  induction text generalizing pos with
  | nil => rfl
  | cons _ _ ih =>
    rw [List.mem_cons, not_or] at plain
    rw [withinAll, List.foldl_cons, ← withinAll, ih _ plain.2, within, if_neg (Ne.symm plain.1), forward, forward, forward,
      List.length_cons, Nat.add_assoc, Nat.add_comm 1]

end Cursor

/-- What a step of the reading takes from a text: a segment of one of the forms, which tells the position after it. -/
structure Segment.Taken (pos : Cursor) (text : List Char) (s : Segment) (rest : List Char) (after : Cursor) : Prop where
  whole : text = s.text ++ rest
  formed : s.Formed rest
  past : after = pos.past s
  told : s.Told after

/-! ### Texts that are taken -/

theorem notMem_of_class {marks : List Char} {p : Char → Bool} (apart : marks.any p = false) (member : p c = true) :
    c ∉ marks := by
  intro mark
  exact Bool.eq_false_iff.mp apart (List.any_eq_true.mpr ⟨c, mark, member⟩)

theorem ofChar?_ne_lineEnd {c : Char} {kind : TokenKind} (known : TokenKind.ofChar? c = some kind) : c ≠ '\n' := by
  rintro rfl
  cases known

variable {kinds : TokenKind × TokenKind}

theorem ofCharWithEqual?_ne_lineEnd {c : Char}
    (known : TokenKind.ofCharWithEqual? c = some kinds) : c ≠ '\n' := by
  rintro rfl
  cases known

theorem IsNumeral.unbroken (numeral : IsNumeral text rest) : '\n' ∉ text := fun broken =>
  absurd (numeral.isDigit_or_point broken) (by decide)

theorem unbroken_of_isAlphanumeric (all : ∀ c ∈ text, isAlphanumeric c = true) : '\n' ∉ text :=
  fun broken => absurd (all _ broken) (by decide)

theorem forall_head?_dropWhile (p : Char → Bool) (text : List Char) :
    ∀ c ∈ (text.dropWhile p).head?, p c = false := by
  intro c first
  cases left : text.dropWhile p with
  | nil => simp [left] at first
  | cons d =>
    obtain rfl : d = c := by simpa [left] using first
    have := List.head_dropWhile_not p (l := text) (by simp [left])
    simpa [left] using this

theorem isNumeral_splitNumeral (digit : isDigit c = true) (text : List Char) :
    (splitNumeral (c :: text)).1 ++ (splitNumeral (c :: text)).2 = c :: text ∧
      IsNumeral (splitNumeral (c :: text)).1 (splitNumeral (c :: text)).2 := by
  have whole := List.takeWhile_append_dropWhile (p := isDigit) (l := c :: text)
  have filled : (c :: text).takeWhile isDigit ≠ [] := by simp [digit]
  have digits : ∀ (text : List Char), ∀ d ∈ text.takeWhile isDigit, isDigit d = true :=
    fun text d => List.mem_takeWhile_imp
  have ends := forall_head?_dropWhile isDigit (c :: text)
  unfold splitNumeral
  split
  · rename_i d more left
    by_cases decimal : isDigit d = true
    · rw [if_pos decimal]
      refine ⟨?_, .fraction filled (by simp [decimal]) ?_ (forall_head?_dropWhile _ _)⟩
      · rw [List.append_assoc, List.cons_append, List.takeWhile_append_dropWhile, ← left, whole]
      · intro e member
        rcases List.mem_append.mp member with member | member
        · exact digits _ e member
        · exact digits _ e member
    · rw [if_neg decimal]
      refine ⟨left ▸ whole, .whole filled (digits _) (left ▸ ends) ?_⟩
      rintro e rest ⟨⟩
      simpa using decimal
  · rename_i rest noPoint
    refine ⟨whole, .whole filled (digits _) ends ?_⟩
    intro d more left
    exact absurd left (noPoint d more)

theorem closesAfter?_take {n : Nat} (closed : closesAfter? 0 (blotted 0 text) = some n) :
    closesAfter? 0 (blotted 0 (text.take n)) = some (text.take n).length := by
  have read := readComment_eq 0 .start text
  rw [closed, CommentEnd.ofPlain] at read
  have again := (readComment_closed read).2 []
  rw [List.append_nil, readComment_eq] at again
  cases inner : closesAfter? 0 (blotted 0 (text.take n)) with
  | none =>
    rw [inner, CommentEnd.ofPlain] at again
    split at again <;> cases again
  | some =>
    rw [inner] at again
    simp only [CommentEnd.ofPlain, CommentEnd.closed.injEq, List.drop_eq_nil_iff] at again
    have inside := closesAfter?_le inner
    rw [length_blotted] at inside
    exact congrArg some (Nat.le_antisymm inside again.2.1)

/-! ### One segment -/

section Step

variable {pos after : Cursor} {source rest : List Char} {s : Segment}

theorem taken_token {kind : TokenKind} {lexeme more : List Char} {literal : Literal} (plain : '\n' ∉ lexeme)
    (formed : ∀ line, (Segment.token ⟨kind, String.ofList lexeme, literal, line⟩).Formed more)
    (whole : source = lexeme ++ more)
    (read : ScanStep.token kind lexeme literal more (pos.forward lexeme.length) = .segment s rest after) :
    Segment.Taken pos source s rest after := by
  cases read
  refine ⟨by rw [whole, Segment.text, String.toList_ofList], formed _, ?_, rfl⟩
  simp only [Cursor.past, Segment.text, String.toList_ofList, Cursor.withinAll_of_plain _ plain]

theorem taken_readSlash (read : readSlash pos source = .segment s rest after) :
    Segment.Taken pos ('/' :: source) s rest after := by
  have opening (text : List Char) : (pos.forward 2).withinAll text = pos.withinAll ('/' :: '*' :: text) := rfl
  unfold readSlash at read
  split at read
  · rename_i more
    cases read
    have oneLine : '\n' ∉ more.takeWhile (· ≠ '\n') := fun inside => by simpa using List.mem_takeWhile_imp inside
    have plain : '\n' ∉ '/' :: '/' :: more.takeWhile (· ≠ '\n') := by simpa using oneLine
    refine ⟨by simp [Segment.text, List.takeWhile_append_dropWhile], .lineComment oneLine ?_, ?_, trivial⟩
    · intro c first
      simpa using forall_head?_dropWhile _ _ c first
    · simp only [Cursor.past, Segment.text, Cursor.withinAll_of_plain _ plain, List.length_cons]
      rw [Nat.add_comm 2]
  · rename_i more
    rw [readComment_eq] at read
    cases closed : closesAfter? 0 (blotted 0 more) with
    | some =>
      simp only [closed, CommentEnd.ofPlain] at read
      cases read
      exact ⟨by simp [Segment.text], .blockComment (closesAfter?_take closed), opening _, trivial⟩
    | none =>
      by_cases ends : EndsInMark (blotted 0 more)
      · simp only [closed, CommentEnd.ofPlain, if_pos ends] at read
        cases read
      · simp only [closed, CommentEnd.ofPlain, if_neg ends] at read
        cases read
        exact ⟨by simp [Segment.text], .openComment closed, opening _, rfl, fun _ _ isStray => by cases isStray⟩
  · rename_i notLine notBlock
    refine taken_token (by decide) (fun line => .slash ?_) rfl read
    intro c first
    obtain ⟨more, rfl⟩ := List.head?_eq_some_iff.mp first
    exact ⟨fun same => notLine more (by rw [same]), fun same => notBlock more (by rw [same])⟩

theorem taken_readString (read : readString pos source = .segment s rest after) :
    Segment.Taken pos (stringMark :: source) s rest after := by
  have whole := List.takeWhile_append_dropWhile (p := fun c => decide (c ≠ stringMark)) (l := source)
  have inside : stringMark ∉ source.takeWhile (· ≠ stringMark) := by
    intro member
    simpa using List.mem_takeWhile_imp member
  simp only [readString] at read
  split at read
  · rename_i left
    cases read
    rw [left, List.append_nil] at whole
    have text := (congrArg (stringMark :: ·) whole.symm).trans (List.append_nil _).symm
    exact ⟨text, .openString inside, rfl, rfl, fun _ _ isStray => by cases isStray⟩
  · rename_i mark more left
    cases read
    obtain rfl : mark = stringMark := by
      have first := forall_head?_dropWhile (· ≠ stringMark) source mark (by rw [left]; rfl)
      simpa using first
    rw [left] at whole
    have closing : ((pos.forward 1).withinAll (source.takeWhile (· ≠ stringMark))).forward 1 =
        pos.withinAll (stringMark :: source.takeWhile (· ≠ stringMark) ++ [stringMark]) := by
      rw [Cursor.withinAll, Cursor.withinAll, List.foldl_concat]
      rfl
    refine ⟨?_, .string inside, ?_, rfl⟩
    · rw [Segment.text, String.toList_ofList, List.append_assoc, List.cons_append, List.singleton_append, whole]
    · simp only [Cursor.past, Segment.text, String.toList_ofList, closing]

/-- What one step of the reading takes is the text of a segment of one of the forms. -/
theorem taken_readSegment (read : readSegment pos c source = .segment s rest after) :
    Segment.Taken pos (c :: source) s rest after := by
  unfold readSegment at read
  split at read
  · rename_i kind known
    exact taken_token (by simpa using Ne.symm (ofChar?_ne_lineEnd known)) (fun line => .mark known) rfl read
  · rename_i alone withEqual noMark known
    have plain := Ne.symm (ofCharWithEqual?_ne_lineEnd known)
    split at read
    · exact taken_token (by simpa using plain) (fun line => .operatorEqual known) rfl read
    · rename_i notEqual
      refine taken_token (by simpa using plain) (fun line => .operator known ?_) rfl read
      intro first
      obtain ⟨more, rfl⟩ := List.head?_eq_some_iff.mp first
      exact notEqual more rfl
  · rename_i noMark noOperator
    split at read
    · rename_i isSlash
      exact isSlash ▸ taken_readSlash read
    rename_i notSlash
    split at read
    · rename_i isBlank
      cases read
      simp only [Bool.or_eq_true, decide_eq_true_eq] at isBlank
      rcases isBlank with (rfl | rfl) | rfl <;> exact ⟨rfl, .blank (by decide), rfl, trivial⟩
    rename_i notBlank
    split at read
    · rename_i isEnd
      cases read
      exact ⟨rfl, .blank (by simp [isEnd]), (if_pos isEnd).symm, trivial⟩
    rename_i notEnd
    split at read
    · rename_i isMark
      exact isMark ▸ taken_readString read
    rename_i notMark
    split at read
    · rename_i digit
      obtain ⟨whole, numeral⟩ := isNumeral_splitNumeral digit source
      simp only [readNumeral] at read
      split at read
      · rename_i value known
        exact taken_token numeral.unbroken (fun line => .numeral numeral known) whole.symm read
      · cases read
    rename_i noDigit
    split at read
    · rename_i letter
      have all : ∀ d ∈ (c :: source).takeWhile isAlphanumeric, isAlphanumeric d = true := fun d => List.mem_takeWhile_imp
      have whole := List.takeWhile_append_dropWhile (p := isAlphanumeric) (l := c :: source)
      have begins : (c :: source).takeWhile isAlphanumeric = c :: source.takeWhile isAlphanumeric := by simp [letter]
      rw [begins] at all whole
      rw [readWord, begins] at read
      exact taken_token (unbroken_of_isAlphanumeric all)
        (fun line => .word (by simpa using noDigit) all (forall_head?_dropWhile _ _)) whole.symm read
    rename_i noLetter
    cases read
    have layout : c ∉ ['/', ' ', '\r', '\t', '\n', stringMark] := by
      simp only [Bool.or_eq_true, decide_eq_true_eq, not_or] at notBlank
      simp [notSlash, notBlank, notEnd, notMark]
    have plain : '\n' ∉ [c] := by simpa using Ne.symm notEnd
    refine ⟨rfl, .stray ⟨noMark, noOperator, layout, by simpa using noDigit, by simpa using noLetter⟩,
      (Cursor.withinAll_of_plain pos plain).symm, rfl, ?_⟩
    rintro _ _ ⟨⟩
    exact ⟨rfl, rfl⟩

/-! ### Segments that are taken again -/

theorem span_eq {p : Char → Bool} (all : ∀ c ∈ text, p c = true)
    (ends : ∀ c ∈ rest.head?, p c = false) :
    (text ++ rest).takeWhile p = text ∧ (text ++ rest).dropWhile p = rest := by
  rw [List.takeWhile_append_of_pos all, List.dropWhile_append_of_pos all]
  cases rest with
  | nil => simp
  | cons d => simp [ends d rfl]

theorem IsNumeral.splitNumeral_eq (numeral : IsNumeral text rest) :
    splitNumeral (text ++ rest) = (text, rest) := by
  cases numeral with
  | whole filled all ends noFraction =>
    obtain ⟨taken, left⟩ := span_eq all ends
    unfold splitNumeral
    rw [taken, left]
    split
    · rename_i d more
      rw [if_neg (by simp [noFraction d more rfl])]
    · rfl
  | @fraction digits decimals _ filled more all ends =>
    have point : ∀ c ∈ ('.' :: (decimals ++ rest)).head?, isDigit c = false := by
      rintro _ ⟨⟩
      decide
    obtain ⟨taken, left⟩ := span_eq (fun c member => all c (List.mem_append_left _ member)) point
    have decimal := span_eq (fun c member => all c (List.mem_append_right digits member)) ends
    rw [List.append_assoc, List.cons_append, splitNumeral, taken, left]
    cases decimals with
    | nil => exact absurd rfl more
    | cons d =>
      have digit : isDigit d = true := all d (by simp)
      simp only [List.cons_append] at decimal ⊢
      simp only [if_pos digit, decimal]

/-- Numerals and words begin as nothing else does. -/
theorem readSegment_of_part (part : (isDigit c || isAlphanumeric c) = true) :
    readSegment pos c source = if isDigit c then readNumeral pos (c :: source) else readWord pos (c :: source) := by
  have noMark : TokenKind.ofChar? c = none := by
    unfold TokenKind.ofChar?
    split <;> first | rfl | cases part
  have noOperator : TokenKind.ofCharWithEqual? c = none := by
    unfold TokenKind.ofCharWithEqual?
    split <;> first | rfl | cases part
  have noLayout : c ∉ ['/', ' ', '\r', '\t', '\n', stringMark] := notMem_of_class (p := fun c => isDigit c || isAlphanumeric c) rfl part
  simp only [List.mem_cons, List.not_mem_nil, or_false, not_or] at noLayout
  simp only [readSegment, noMark, noOperator, noLayout, decide_false, Bool.or_false, Bool.false_eq_true, if_false]
  rw [Bool.or_eq_true] at part
  split
  · rfl
  · rename_i noDigit
    rw [if_pos (part.resolve_left noDigit)]

theorem ofChar?_eq_none (known : TokenKind.ofCharWithEqual? c = some kinds) :
    TokenKind.ofChar? c = none := by
  unfold TokenKind.ofCharWithEqual? at known
  split at known <;> cases known <;> rfl

/-- A segment of one of the forms that is not reported is taken in one step, up to its line. -/
theorem readSegment_of_formed (formed : s.Formed rest) (quiet : s.report? = none) (whole : c :: source = s.text ++ rest)
    (pos : Cursor) : ∃ after, readSegment pos c source = .segment (s.onLine after.line) rest after := by
  cases formed with
  | mark known =>
    rw [Segment.text, String.toList_ofList] at whole
    obtain ⟨rfl, rfl⟩ := List.cons.inj whole
    refine ⟨pos.forward 1, ?_⟩
    simp only [readSegment, known]
    rfl
  | operator known single =>
    rw [Segment.text, String.toList_ofList] at whole
    obtain ⟨rfl, rfl⟩ := List.cons.inj whole
    refine ⟨pos.forward 1, ?_⟩
    simp only [readSegment, ofChar?_eq_none known, known]
    split
    · exact absurd rfl single
    · rfl
  | operatorEqual known =>
    rw [Segment.text, String.toList_ofList] at whole
    obtain ⟨rfl, rfl⟩ := List.cons.inj whole
    refine ⟨pos.forward 2, ?_⟩
    simp only [readSegment, ofChar?_eq_none known, known]
    rfl
  | slash noComment =>
    rw [Segment.text, String.toList_ofList] at whole
    obtain ⟨rfl, rfl⟩ := List.cons.inj whole
    refine ⟨pos.forward 1, ?_⟩
    show readSlash pos source = _
    unfold readSlash
    split
    · exact absurd rfl (noComment _ rfl).1
    · exact absurd rfl (noComment _ rfl).2
    · rfl
  | @string body _ _ inside =>
    rw [Segment.text, String.toList_ofList] at whole
    obtain ⟨rfl, rfl⟩ := List.cons.inj whole
    refine ⟨((pos.forward 1).withinAll body).forward 1, ?_⟩
    have unmarked : ∀ c ∈ body, decide (c ≠ stringMark) = true := by
      intro c member
      simpa using fun same : c = stringMark => inside (same ▸ member)
    have marked : ∀ c ∈ (stringMark :: rest).head?, decide (c ≠ stringMark) = false := by simp
    have span := span_eq unmarked marked
    show readString pos (body ++ [stringMark] ++ rest) = _
    rw [List.append_assoc, List.singleton_append, readString]
    simp only [span]
    rfl
  | @numeral text value _ _ digits known =>
    rw [Segment.text, String.toList_ofList] at whole
    have digit : isDigit c = true := digits.isDigit_head whole
    refine ⟨pos.forward text.length, ?_⟩
    rw [readSegment_of_part (by simp [digit]), if_pos digit, whole, readNumeral, digits.splitNumeral_eq]
    simp only [known]
    rfl
  | @word d more _ _ noDigit all ends =>
    rw [Segment.text, String.toList_ofList] at whole
    obtain rfl : c = d := List.head_eq_of_cons_eq whole
    have letter : isAlphanumeric c = true := all c (by simp)
    refine ⟨pos.forward (c :: more).length, ?_⟩
    obtain ⟨taken, left⟩ := span_eq all ends
    rw [readSegment_of_part (by simp [letter]), if_neg (by simp [noDigit]), whole, readWord, taken, left]
    rfl
  | blank isBlank =>
    cases whole
    simp only [List.mem_cons, List.not_mem_nil, or_false] at isBlank
    rcases isBlank with rfl | rfl | rfl | rfl <;> exact ⟨_, rfl⟩
  | @lineComment text _ oneLine ends =>
    cases whole
    have inLine : ∀ c ∈ text, decide (c ≠ '\n') = true := by
      intro c member
      simpa using fun same : c = '\n' => oneLine (same ▸ member)
    have lineEnds : ∀ c ∈ rest.head?, decide (c ≠ '\n') = false := by simpa using ends
    have span := span_eq inLine lineEnds
    refine ⟨pos.forward (2 + text.length), ?_⟩
    show readSlash pos ('/' :: (text ++ rest)) = _
    simp only [readSlash, span]
    rfl
  | @blockComment text _ closed =>
    cases whole
    have alone : readComment 0 (pos.forward 2) text = .closed text [] ((pos.forward 2).withinAll text) := by
      rw [readComment_eq, closed, CommentEnd.ofPlain, List.take_length, List.drop_length]
    refine ⟨(pos.forward 2).withinAll text, ?_⟩
    show readSlash pos ('*' :: (text ++ rest)) = _
    simp only [readSlash, (readComment_closed alone).2 rest]
    rfl
  | stray | openString | openComment => cases quiet

/-- A token is formed in front of every text that begins as the one behind it does, or with a blank. -/
theorem Segment.Formed.before {t : Token} (formed : (Segment.token t).Formed rest) {others : List Char}
    (first : ∀ c ∈ others.head?, c ∈ rest.head? ∨ c = ' ' ∨ c = '\n')
    (second : ∀ c more, others = '.' :: c :: more → c = '\n' ∨ ∃ more', rest = '.' :: c :: more') :
    (Segment.token t).Formed others := by
  have keep {p : Char → Prop} (ends : ∀ c ∈ rest.head?, p c) (blank : p ' ') (line : p '\n') : ∀ c ∈ others.head?, p c := by
    intro c member
    rcases first c member with same | rfl | rfl
    · exact ends c same
    · exact blank
    · exact line
  cases formed with
  | mark known => exact .mark known
  | operator known single =>
    refine .operator known fun equal => ?_
    exact keep (p := (· ≠ '=')) (fun c member same => single (same ▸ member)) (by decide) (by decide) '=' equal rfl
  | operatorEqual known => exact .operatorEqual known
  | slash noComment => exact .slash (keep noComment (by decide) (by decide))
  | string inside => exact .string inside
  | numeral digits known =>
    refine .numeral ?_ known
    cases digits with
    | whole filled all ends noFraction =>
      refine .whole filled all (keep ends rfl rfl) fun c more left => ?_
      rcases second c more left with rfl | ⟨more', same⟩
      · rfl
      · exact noFraction c more' same
    | fraction filled more all ends => exact .fraction filled more all (keep ends rfl rfl)
  | word noDigit all ends => exact .word noDigit all (keep ends rfl rfl)

end Step

/-! ### All segments -/

/-- The tokens before the end of a source have every property of tokens of the forms. -/
theorem forall_mem_read {p : Token → Prop} (each : ∀ t rest, (Segment.token t).Formed rest → p t) (source : String) :
    ∀ t ∈ (scan source).read, p t := by
  have segments (pos : Cursor) (source : List Char) : ∀ s ∈ (scanFrom pos source).segments, ∀ t, s.token? = some t → p t := by
    fun_induction scanFrom pos source with
    | case1 => simp
    | case2 => simp
    | case3 _ _ _ s _ _ step _ ih =>
      refine List.forall_mem_cons.mpr ⟨?_, ih⟩
      have formed := (taken_readSegment step).formed
      cases s <;> rintro _ ⟨⟩
      exact each _ _ formed
  intro t member
  obtain ⟨s, isSegment, isToken⟩ := List.mem_filterMap.mp member
  exact segments .start source.toList s isSegment t isToken

theorem forall_mem_tokens {p : Token → Prop} (each : ∀ t rest, (Segment.token t).Formed rest → p t)
    (last : ∀ line, p ⟨.endOfFile, "", .nil, line⟩) (source : String) : ∀ t ∈ (scan source).tokens, p t := by
  have read := forall_mem_read each source
  intro t member
  rw [Scan.tokens] at member
  split at member
  · exact read t member
  · obtain earlier | isLast := List.mem_append.mp member
    · exact read t earlier
    · rw [List.mem_singleton.mp isLast]
      exact last _

/-- A source that is read to its end is cut into its segments, by induction on the reading. -/
theorem cut_scanFrom (completes : (scanFrom pos source).fault = none) :
    Segment.Cut source (scanFrom pos source).segments := by
  fun_induction scanFrom pos source with
  | case1 => exact .done
  | case2 => cases completes
  | case3 _ _ _ _ _ _ step more ih =>
    have taken := taken_readSegment step
    exact taken.whole ▸ .more taken.formed (ih completes)

namespace Segment

theorem Formed.text_ne_nil {s : Segment} (formed : s.Formed rest) : s.text ≠ [] := by
  cases formed with
  | numeral digits => cases digits <;> simp_all [text]
  | _ => simp [text]

theorem Cut.flatMap_text (cut : Cut source segments) : source = segments.flatMap Segment.text := by
  induction cut with
  | done => rfl
  | more _ _ ih => rw [List.flatMap_cons, ← ih]

theorem Cut.formed (cut : Cut source segments) :
    ∀ before s after, segments = before ++ s :: after → s.Formed (after.flatMap Segment.text) := by
  induction cut with
  | done => simp
  | more formed behind ih =>
    intro before s after split
    cases before with
    | nil =>
      cases split
      exact behind.flatMap_text ▸ formed
    | cons _ before =>
      cases split
      exact ih before s after rfl

theorem map_snd_placed (start : Nat) (segments : List Segment) : (placed start segments).map Prod.snd = segments := by
  induction segments generalizing start with
  | nil => rfl
  | cons _ _ ih => rw [placed, List.map_cons, ih]

theorem start_le_of_mem_placed {start : Nat} {a : Nat × Segment} (member : a ∈ placed start segments) :
    start ≤ a.1 := by
  induction segments generalizing start with
  | nil => cases member
  | cons _ _ ih =>
    rcases List.mem_cons.mp member with rfl | member
    · exact Nat.le_refl _
    · exact Nat.le_trans (Nat.le_add_right _ _) (ih member)

theorem pairwise_placed (start : Nat) (segments : List Segment) :
    (placed start segments).Pairwise fun a b => a.1 + a.2.text.length ≤ b.1 := by
  induction segments generalizing start with
  | nil => exact .nil
  | cons _ _ ih => exact .cons (fun b member => start_le_of_mem_placed member) (ih _)

theorem text_placed (before : List Char) (segments : List Segment) :
    ∀ a ∈ placed before.length segments,
      ((before ++ segments.flatMap Segment.text).drop a.1).take a.2.text.length = a.2.text := by
  induction segments generalizing before with
  | nil => simp [placed]
  | cons s _ ih =>
    intro a member
    rcases List.mem_cons.mp member with rfl | member
    · simp
    · rw [List.flatMap_cons, ← List.append_assoc]
      exact ih (before ++ s.text) a (by rwa [List.length_append])

theorem length_filterMap_report? (segments : List Segment) :
    (segments.filterMap report?).length = segments.countP isRejected := by
  induction segments with
  | nil => rfl
  | cons s _ ih =>
    rw [List.filterMap_cons, List.countP_cons, ← ih]
    cases s <;> rfl

end Segment

/-- Nothing in a source is passed over. If a source is read to its end, it is cut into segments of the forms above, its
text is that of the segments one behind the other, and the segments that are tokens are, in order, the tokens before the
token for the end. Every segment has a text, which stands at its position, and ends before the next one begins. There
are as many reports as there are segments that are reported. -/
theorem source_cut_into_segments (source : String) (completes : (scan source).fault = none) :
    Segment.Cut source.toList (scan source).segments ∧
      source.toList = (scan source).segments.flatMap Segment.text ∧
      (scan source).tokens = (scan source).segments.filterMap Segment.token? ++ [(scan source).endToken] ∧
      (Segment.placed 0 (scan source).segments).map Prod.snd = (scan source).segments ∧
      (∀ a ∈ Segment.placed 0 (scan source).segments, a.2.text ≠ [] ∧
        (source.toList.drop a.1).take a.2.text.length = a.2.text) ∧
      (Segment.placed 0 (scan source).segments).Pairwise (fun a b => a.1 + a.2.text.length ≤ b.1) ∧
      (scan source).reports.length = (scan source).segments.countP Segment.isRejected := by
  have cut : Segment.Cut source.toList (scan source).segments := cut_scanFrom completes
  have whole := cut.flatMap_text
  refine ⟨cut, whole, ?_, Segment.map_snd_placed _ _, ?_, Segment.pairwise_placed _ _,
    Segment.length_filterMap_report? _⟩
  · rw [Scan.tokens, completes]
    rfl
  · intro a member
    have inside : a.2 ∈ (scan source).segments := by
      rw [← Segment.map_snd_placed 0 (scan source).segments]
      exact List.mem_map_of_mem member
    obtain ⟨before, after, split⟩ := List.append_of_mem inside
    refine ⟨(cut.formed before a.2 after split).text_ne_nil, ?_⟩
    have placed := Segment.text_placed [] (scan source).segments a member
    rwa [List.nil_append, ← whole] at placed

/-- A line with an operator, a numeral, both kinds of comments, a character that is not accepted, and a string that is
never closed. -/
def raggedSource : String := "a <= 1.5 / @ /* /* */ */ // b\n\"c"

theorem source_cut_into_segments_ragged :
    (scan raggedSource).fault = none ∧
      (scan raggedSource).reports.length = 2 ∧
      raggedSource.toList = (scan raggedSource).segments.flatMap Segment.text ∧
      (Segment.placed 0 (scan raggedSource).segments).Pairwise (fun a b => a.1 + a.2.text.length ≤ b.1) := by
  have completes : (scan raggedSource).fault = none := by decide +kernel
  have two : (scan raggedSource).segments.countP Segment.isRejected = 2 := by decide +kernel
  obtain ⟨-, whole, -, -, -, apart, count⟩ := source_cut_into_segments raggedSource completes
  exact ⟨completes, count.trans two, whole, apart⟩

end LoxLang
