import LoxLang.Proofs.Segmentation

/-!
Lines and columns of a source. Every line end is counted once, wherever it lies, so tokens and reports have the lines that
they should. Columns start again behind a line end, but one too high where the line ends inside of a string or a block
comment.
-/

namespace LoxLang

variable {text : List Char} {s : Segment}

/-- The part of a text behind its last line end. -/
def lastLine (text : List Char) : List Char := (text.reverse.takeWhile (· ≠ '\n')).reverse

theorem lastLine_append_of_mem (before : List Char) (broken : '\n' ∈ text) :
    lastLine (before ++ text) = lastLine text := by
  rw [lastLine, lastLine, List.reverse_append, List.takeWhile_append, if_neg]
  intro whole
  have all := List.takeWhile_eq_self_iff.mp ((List.takeWhile_prefix _).eq_of_length whole)
  simpa using all '\n' (List.mem_reverse.mpr broken)

theorem lastLine_append_of_notMem (before : List Char) (plain : '\n' ∉ text) :
    lastLine (before ++ text) = lastLine before ++ text := by
  rw [lastLine, lastLine, List.reverse_append, List.takeWhile_append_of_pos, List.reverse_append, List.reverse_reverse]
  intro c member
  simpa using fun same : c = '\n' => plain (List.mem_reverse.mp (same ▸ member))

namespace Cursor

theorem line_withinAll (pos : Cursor) (text : List Char) : (pos.withinAll text).line = pos.line + text.count '\n' := by
  induction text generalizing pos with
  | nil => rfl
  | cons c rest ih =>
    rw [withinAll, List.foldl_cons, ← withinAll, ih, List.count_cons, within]
    by_cases broken : c = '\n'
    · simp only [broken, if_true, beq_self_eq_true, nextLine, forward]
      omega
    · simp [broken, forward]

theorem column_withinAll (pos : Cursor) (broken : '\n' ∈ text) :
    (pos.withinAll text).column = (lastLine text).length + 1 := by
  induction text using List.reverseRecOn with
  | nil => cases broken
  | append_singleton text c ih =>
    rw [withinAll, List.foldl_concat, ← withinAll, within]
    by_cases isEnd : c = '\n'
    · subst isEnd
      simp [lastLine, nextLine, forward]
    · have before : '\n' ∈ text := by simpa [Ne.symm isEnd] using broken
      rw [if_neg isEnd, lastLine_append_of_notMem _ (by simpa using Ne.symm isEnd), forward, ih before]
      simp

def pastAll (pos : Cursor) (segments : List Segment) : Cursor := segments.foldl past pos

end Cursor

/-! ### Segments and line ends -/

namespace Segment

/-- The segment is a string or a block comment. -/
def encloses : Segment → Bool
  | token t => t.kind == .string
  | blockComment _ => true
  | _ => false

/-- The last segment that a line ends in. -/
def lastBroken? (segments : List Segment) : Option Segment := segments.reverse.find? fun s => '\n' ∈ s.text

theorem Formed.of_broken {rest : List Char} (formed : s.Formed rest) (broken : '\n' ∈ s.text) :
    s = .blank '\n' ∨ s.encloses = true ∨ rest = [] := by
  cases formed with
  | mark known => simp [text, Ne.symm (ofChar?_ne_lineEnd known)] at broken
  | operator known => simp [text, Ne.symm (ofCharWithEqual?_ne_lineEnd known)] at broken
  | operatorEqual known => simp [text, Ne.symm (ofCharWithEqual?_ne_lineEnd known)] at broken
  | slash => simp [text] at broken
  | string => exact .inr (.inl rfl)
  | numeral digits => exact absurd broken (by simpa [text] using digits.unbroken)
  | word _ all => exact absurd broken (by simpa [text] using unbroken_of_isAlphanumeric all)
  | blank => exact .inl (by rw [List.mem_singleton.mp broken])
  | lineComment oneLine => exact absurd broken (by simpa [text] using oneLine)
  | blockComment => exact .inr (.inl rfl)
  | stray isStray =>
    obtain rfl := List.mem_singleton.mp broken
    exact absurd (by simp) isStray.noLayout
  | openString | openComment => exact .inr (.inr rfl)

end Segment

/-! ### All segments -/

/-- Every segment tells where it ends, by induction on the reading. -/
theorem told_scanFrom (pos : Cursor) (source : List Char) :
    (∀ before s later, (scanFrom pos source).segments = before ++ s :: later → s.Told (pos.pastAll (before ++ [s]))) ∧
      ((scanFrom pos source).fault = none → (scanFrom pos source).finish = pos.pastAll (scanFrom pos source).segments) := by
  fun_induction scanFrom pos source with
  | case1 => simp [Cursor.pastAll]
  | case2 => simp
  | case3 _ _ _ _ _ _ step _ ih =>
    obtain ⟨-, -, rfl, told⟩ := taken_readSegment step
    refine ⟨fun before other later split => ?_, ih.2⟩
    cases before with
    | nil =>
      cases split
      exact told
    | cons _ before =>
      obtain ⟨rfl, others⟩ := List.cons.inj split
      exact ih.1 before other later others

namespace Cursor

theorem line_past (pos : Cursor) (s : Segment) : (pos.past s).line = pos.line + s.text.count '\n' := by
  cases s with
  | blank c => by_cases isEnd : c = '\n' <;> simp [past, isEnd, Segment.text, nextLine, forward]
  | _ => exact line_withinAll ..

theorem line_pastAll (pos : Cursor) (segments : List Segment) :
    (pos.pastAll segments).line = pos.line + (segments.flatMap Segment.text).count '\n' := by
  induction segments generalizing pos with
  | nil => rfl
  | cons _ _ ih =>
    rw [pastAll, List.foldl_cons, ← pastAll, ih, line_past, List.flatMap_cons, List.count_append, Nat.add_assoc]

theorem column_past_of_plain (pos : Cursor) (plain : '\n' ∉ s.text) :
    (pos.past s).column = pos.column + s.text.length := by
  cases s with
  | blank =>
    rw [past, if_neg fun same => plain (by simp [Segment.text, same])]
    rfl
  | _ => exact congrArg column (withinAll_of_plain pos plain)

theorem column_past_of_encloses (pos : Cursor) (encloses : s.encloses = true) (broken : '\n' ∈ s.text) :
    (pos.past s).column = (lastLine s.text).length + 1 := by
  cases s with
  | blank => cases encloses
  | _ => exact column_withinAll pos broken

/-- Behind the last line end the characters are counted, and the line end with them if it is inside of a segment. -/
theorem column_pastAll {segments : List Segment}
    (known : ∀ s ∈ segments, '\n' ∈ s.text → s = .blank '\n' ∨ s.encloses = true) :
    (start.pastAll segments).column = (lastLine (segments.flatMap Segment.text)).length +
      if (Segment.lastBroken? segments).any Segment.encloses then 1 else 0 := by
  induction segments using List.reverseRecOn with
  | nil => rfl
  | append_singleton _ s ih =>
    have before := ih fun other member => known other (List.mem_append_left _ member)
    rw [pastAll, List.foldl_concat, ← pastAll, List.flatMap_append, List.flatMap_singleton]
    simp only [Segment.lastBroken?, List.reverse_append, List.reverse_singleton, List.singleton_append, List.find?_cons]
    by_cases broken : '\n' ∈ s.text
    · rw [lastLine_append_of_mem _ broken, decide_eq_true broken]
      rcases known s (List.mem_append_right _ (List.mem_singleton_self s)) broken with rfl | encloses
      · rfl
      · simp only [column_past_of_encloses _ encloses broken, Option.any_some, encloses, if_true]
    · rw [lastLine_append_of_notMem _ broken, column_past_of_plain _ broken, decide_eq_false broken, before,
        List.length_append, Segment.lastBroken?]
      simp only
      omega

end Cursor

/-- Every line end is counted once. The line of a token is one more than the number of line ends before its end, that of the
last token one more than their number in the source, and that of a report one more than the number before the place
where it is made. -/
theorem lines_count_lineEnds {source : String} (completes : (scan source).fault = none) :
    (∀ before s later, (scan source).segments = before ++ s :: later →
      source.toList = before.flatMap Segment.text ++ s.text ++ later.flatMap Segment.text ∧
      (∀ t, s.token? = some t → t.line = 1 + (before.flatMap Segment.text ++ s.text).count '\n') ∧
      ∀ r, s.report? = some r → r.place = .line (1 + (before.flatMap Segment.text ++ s.text).count '\n' : Nat)) ∧
    (scan source).tokens = (scan source).segments.filterMap Segment.token? ++ [(scan source).endToken] ∧
    (scan source).reports = (scan source).segments.filterMap Segment.report? ∧
    (scan source).endToken.line = 1 + source.toList.count '\n' := by
  have whole : source.toList = (scan source).segments.flatMap Segment.text := (cut_scanFrom completes).flatMap_text
  obtain ⟨told, ends⟩ := told_scanFrom .start source.toList
  refine ⟨fun before s later split => ?_, ?_, rfl, ?_⟩
  · have line : (Cursor.start.pastAll (before ++ [s])).line = 1 + (before.flatMap Segment.text ++ s.text).count '\n' := by
      rw [Cursor.line_pastAll, List.flatMap_append, List.flatMap_singleton]
      rfl
    have here := told before s later split
    refine ⟨by rw [whole, split]; simp, fun t isToken => ?_, fun r isReport => ?_⟩
    · cases s <;> cases isToken
      exact here.trans line
    · cases s <;> cases isReport
      exact congrArg (fun n : Nat => Place.line n) (here.1.trans line)
  · rw [Scan.tokens, completes]
    rfl
  · rw [whole, Scan.endToken, show (scan source).finish = _ from ends completes, Cursor.line_pastAll]
    rfl

/-- Line ends behind a line comment, in a string, and right behind a nested mark. -/
def spreadSource : String := "a//b\n\"c\n\"/*/*\n*/ */"

theorem lines_count_lineEnds_spread :
    let before : List Segment := [.token ⟨.identifier, "a", .nil, 1⟩, .lineComment ['/', '/', 'b'], .blank '\n']
    let text : Segment := .token ⟨.string, "\"c\n\"", .string "c\n", 3⟩
    (scan spreadSource).fault = none ∧
      (scan spreadSource).segments = before ++ text :: [.blockComment "/*/*\n*/ */".toList] ∧
      3 = 1 + (before.flatMap Segment.text ++ text.text).count '\n' ∧
      (scan spreadSource).endToken.line = 1 + spreadSource.toList.count '\n' := by
  intro before text
  have completes : (scan spreadSource).fault = none := by
    rw [← scanSteps_eq]
    rfl
  have split : (scan spreadSource).segments = before ++ text :: [.blockComment "/*/*\n*/ */".toList] := by
    rw [← scanSteps_eq]
    rfl
  obtain ⟨lines, -, -, last⟩ := lines_count_lineEnds completes
  exact ⟨completes, split, (lines before text _ split).2.1 _ rfl, last⟩

/-- The column that is reported for a character that is not accepted: the number of characters before it in its line, and
one for itself, and one more if the line begins inside of a string or a block comment. -/
theorem stray_column_eq {source : String} (completes : (scan source).fault = none) {before later : List Segment}
    {text : List Char} {line column : Nat} {c : Char}
    (split : (scan source).segments = before ++ .rejected text line (.stray c column) :: later) :
    source.toList = before.flatMap Segment.text ++ c :: later.flatMap Segment.text ∧
      column = (lastLine (before.flatMap Segment.text)).length + 1 +
        if (Segment.lastBroken? before).any Segment.encloses then 1 else 0 := by
  have cut := cut_scanFrom completes
  obtain ⟨-, stray⟩ := (told_scanFrom .start source.toList).1 before _ later split
  obtain ⟨rfl, isColumn⟩ := stray c column rfl
  refine ⟨?_, ?_⟩
  · rw [cut.flatMap_text, show (scanFrom .start source.toList).segments = _ from split]
    simp [Segment.text]
  · have known : ∀ s ∈ before, '\n' ∈ s.text → s = .blank '\n' ∨ s.encloses = true := by
      intro s member broken
      obtain ⟨earlier, between, rfl⟩ := List.append_of_mem member
      have formed := cut.formed earlier s (between ++ .rejected [c] line (.stray c column) :: later)
        (split.trans (List.append_assoc ..))
      rcases formed.of_broken broken with isBlank | encloses | last
      · exact .inl isBlank
      · exact .inr encloses
      · simp [Segment.text] at last
    have plain : '\n' ∉ (Segment.rejected [c] line (.stray c column)).text := by
      intro broken
      obtain rfl := List.mem_singleton.mp broken
      rcases cut.formed before _ later split with ⟨⟩
      rename_i isStray
      exact isStray.noLayout (by simp)
    rw [isColumn, Cursor.pastAll, List.foldl_concat, ← Cursor.pastAll, Cursor.column_past_of_plain _ plain,
      Cursor.column_pastAll known, Nat.add_right_comm]
    rfl

/-- A string that goes on in the second line, and a character that is not accepted right behind it. -/
def brokenSource : String := "\"\n\"@"

/-- The second character of the second line is reported as the third. -/
theorem stray_column_eq_broken :
    let before : List Segment := [.token ⟨.string, "\"\n\"", .string "\n", 2⟩]
    (scan brokenSource).fault = none ∧
      (scan brokenSource).segments = before ++ .rejected ['@'] 2 (.stray '@' 3) :: [] ∧
      (lastLine (before.flatMap Segment.text)).length + 1 = 2 ∧
      3 = (lastLine (before.flatMap Segment.text)).length + 1 +
        if (Segment.lastBroken? before).any Segment.encloses then 1 else 0 := by
  intro before
  have completes : (scan brokenSource).fault = none := by
    rw [← scanSteps_eq]
    rfl
  have split : (scan brokenSource).segments = before ++ .rejected ['@'] 2 (.stray '@' 3) :: [] := by
    rw [← scanSteps_eq]
    rfl
  exact ⟨completes, split, rfl, (stray_column_eq completes split).2⟩

end LoxLang
