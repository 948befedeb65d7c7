import LoxLang.Proofs.Scanning

/-!
Where block comments end. Read plainly, a comment ends at the mark that brings the level of nesting back to zero: marks
are taken from left to right, an opening one adds a level and a closing one takes one away. The scanner passes over the
character behind a nested mark, whatever it is. So it reads a comment as the plain reading reads the text with these
characters blotted out, and finds the same end if the nested marks stand apart: each has a character behind it with
which no other mark begins.
-/

namespace LoxLang

/-- The number of characters up to the end of a comment that is read plainly, with some comments open inside it. -/
def closesAfter? : Nat → List Char → Option Nat
  | _, [] => none
  | depth, '/' :: '*' :: rest => (closesAfter? (depth + 1) rest).map (· + 2)
  | 0, '*' :: '/' :: _ => some 2
  | depth + 1, '*' :: '/' :: rest => (closesAfter? depth rest).map (· + 2)
  | depth, _ :: rest => (closesAfter? depth rest).map (· + 1)

/-- The text of a comment in which the character behind every nested mark is blotted out. -/
def blotted : Nat → List Char → List Char
  | _, [] => []
  | depth, '/' :: '*' :: rest =>
    match rest with
    | [] => ['/', '*']
    | _ :: more => '/' :: '*' :: ' ' :: blotted (depth + 1) more
  | 0, '*' :: '/' :: rest => '*' :: '/' :: rest
  | depth + 1, '*' :: '/' :: rest =>
    match rest with
    | [] => ['*', '/']
    | _ :: more => '*' :: '/' :: ' ' :: blotted depth more
  | depth, c :: rest => c :: blotted depth rest

/-- The last two characters are a mark. -/
def EndsInMark (text : List Char) : Prop := ['/', '*'] <:+ text ∨ ['*', '/'] <:+ text

instance (text : List Char) : Decidable (EndsInMark text) :=
  inferInstanceAs (Decidable (['/', '*'] <:+ text ∨ ['*', '/'] <:+ text))

/-- The first two characters are a mark. -/
def BeginsWithMark (text : List Char) : Prop := ['/', '*'] <+: text ∨ ['*', '/'] <+: text

/-- Behind every nested mark, up to the end of the comment, there is a character, and no other mark begins with it. -/
def MarksApart : Nat → List Char → Prop
  | _, [] => True
  | depth, '/' :: '*' :: rest => rest ≠ [] ∧ ¬ BeginsWithMark rest ∧ MarksApart (depth + 1) rest
  | 0, '*' :: '/' :: _ => True
  | depth + 1, '*' :: '/' :: rest => rest ≠ [] ∧ ¬ BeginsWithMark rest ∧ MarksApart depth rest
  | depth, _ :: rest => MarksApart depth rest

/-! ### Characters that begin no mark -/

section
variable {c : Char} {rest : List Char} (noMark : ¬ BeginsWithMark (c :: rest)) (depth : Nat)
include noMark

theorem closesAfter?_cons : closesAfter? depth (c :: rest) = (closesAfter? depth rest).map (· + 1) := by
  rw [closesAfter?]
  · rintro more rfl rfl
    simp [BeginsWithMark] at noMark
  · rintro more - rfl rfl
    simp [BeginsWithMark] at noMark
  · rintro more _ - rfl rfl
    simp [BeginsWithMark] at noMark

theorem blotted_cons : blotted depth (c :: rest) = c :: blotted depth rest := by
  rw [blotted]
  · rintro more rfl rfl
    simp [BeginsWithMark] at noMark
  · rintro more - rfl rfl
    simp [BeginsWithMark] at noMark
  · rintro more _ - rfl rfl
    simp [BeginsWithMark] at noMark

theorem marksApart_cons : MarksApart depth (c :: rest) ↔ MarksApart depth rest := by
  rw [MarksApart]
  · rintro more rfl rfl
    simp [BeginsWithMark] at noMark
  · rintro more - rfl rfl
    simp [BeginsWithMark] at noMark
  · rintro more _ - rfl rfl
    simp [BeginsWithMark] at noMark

end

theorem beginsWithMark_cons (c : Char) (text : List Char) :
    BeginsWithMark (c :: text) ↔ c = '/' ∧ text.head? = some '*' ∨ c = '*' ∧ text.head? = some '/' := by
  cases text with
  | nil => simp [BeginsWithMark]
  | cons => simp [BeginsWithMark, eq_comm]

theorem head?_blotted (depth : Nat) (text : List Char) : (blotted depth text).head? = text.head? := by
  fun_cases blotted depth text <;> simp

theorem length_blotted (depth : Nat) (text : List Char) : (blotted depth text).length = text.length := by
  fun_induction blotted depth text <;> simp_all

theorem not_beginsWithMark_blotted {c : Char} {rest : List Char} (noMark : ¬ BeginsWithMark (c :: rest)) (depth : Nat) :
    ¬ BeginsWithMark (c :: blotted depth rest) := by
  rw [beginsWithMark_cons] at noMark ⊢
  rwa [head?_blotted]

theorem endsInMark_cons {c : Char} {text : List Char} (noMark : ¬ BeginsWithMark (c :: text)) :
    EndsInMark (c :: text) ↔ EndsInMark text := by
  have whole : ∀ {a b : Char}, [a, b] = c :: text → c = a ∧ text.head? = some b := by
    rintro a b ⟨⟩
    exact ⟨rfl, rfl⟩
  rw [beginsWithMark_cons] at noMark
  simp only [EndsInMark, List.suffix_cons_iff]
  constructor
  · rintro ((same | ends) | (same | ends))
    · exact absurd (.inl (whole same)) noMark
    · exact .inl ends
    · exact absurd (.inr (whole same)) noMark
    · exact .inr ends
  · rintro (ends | ends)
    · exact .inl (.inr ends)
    · exact .inr (.inr ends)

theorem endsInMark_nested (a b : Char) (text : List Char) : EndsInMark (a :: b :: ' ' :: text) ↔ EndsInMark text := by
  simp [EndsInMark, List.suffix_cons_iff]

/-! ### How the scanner reads a comment -/

/-- How a comment ends, given where it is closed when it is read plainly. -/
def CommentEnd.ofPlain (pos : Cursor) (text seen : List Char) : Option Nat → CommentEnd
  | some n => .closed (text.take n) (text.drop n) (pos.withinAll (text.take n))
  | none =>
    if EndsInMark seen then .nothingAfterMark ((pos.withinAll text).forward 1)
    else .unclosed text (pos.withinAll text)

theorem CommentEnd.prepend_ofPlain (before : List Char) {pos : Cursor} {text seen seen' : List Char}
    (same : EndsInMark seen' ↔ EndsInMark seen) (end? : Option Nat) :
    (ofPlain (pos.withinAll before) text seen end?).prepend before =
      ofPlain pos (before ++ text) seen' (end?.map (· + before.length)) := by
  have further : ∀ more, (pos.withinAll before).withinAll more = pos.withinAll (before ++ more) := by
    intro more
    simp [Cursor.withinAll]
  cases end? with
  | some =>
    rw [Option.map_some, Nat.add_comm]
    simp only [ofPlain, prepend, further, List.take_length_add_append, List.drop_length_add_append]
  | none =>
    simp only [ofPlain, Option.map_none, same, further]
    split <;> rfl

theorem not_beginsWithMark_blank (text : List Char) : ¬ BeginsWithMark (' ' :: text) := by
  simp [beginsWithMark_cons]

/-- The scanner reads a comment as the plain reading reads it with the characters behind nested marks blotted out, by
induction on the reading. -/
theorem readComment_eq (depth : Nat) (pos : Cursor) (text : List Char) :
    readComment depth pos text = .ofPlain pos text (blotted depth text) (closesAfter? depth (blotted depth text)) := by
  fun_induction readComment depth pos text with
  | case1 => simp [blotted, closesAfter?, CommentEnd.ofPlain, EndsInMark, Cursor.withinAll]
  | case2 =>
    simp [blotted, closesAfter?, CommentEnd.ofPlain, EndsInMark, Cursor.withinAll, Cursor.within, Cursor.forward]
  | case3 depth pos c more ih =>
    have place : (pos.forward 2).within c = pos.withinAll ['/', '*', c] := by
      simp [Cursor.withinAll, Cursor.within, Cursor.forward]
    have inside : closesAfter? (depth + 1) (' ' :: blotted (depth + 1) more) =
        (closesAfter? (depth + 1) (blotted (depth + 1) more)).map (· + 1) :=
      closesAfter?_cons (not_beginsWithMark_blank _) (depth + 1)
    rw [ih, place, CommentEnd.prepend_ofPlain _ (endsInMark_nested '/' '*' _)]
    simp only [blotted, closesAfter?, inside, Option.map_map]
    rfl
  | case4 =>
    simp [blotted, closesAfter?, CommentEnd.ofPlain, Cursor.withinAll, Cursor.within, Cursor.forward]
  | case5 =>
    simp [blotted, closesAfter?, CommentEnd.ofPlain, EndsInMark, Cursor.withinAll, Cursor.within, Cursor.forward]
  | case6 pos depth c more ih =>
    have place : (pos.forward 2).within c = pos.withinAll ['*', '/', c] := by
      simp [Cursor.withinAll, Cursor.within, Cursor.forward]
    have inside : closesAfter? depth (' ' :: blotted depth more) =
        (closesAfter? depth (blotted depth more)).map (· + 1) :=
      closesAfter?_cons (not_beginsWithMark_blank _) depth
    rw [ih, place, CommentEnd.prepend_ofPlain _ (endsInMark_nested '*' '/' _)]
    simp only [blotted, closesAfter?, inside, Option.map_map]
    rfl
  | case7 depth pos c more notOpen notClose ih =>
    have noMark : ¬ BeginsWithMark (c :: more) := by
      rintro (⟨rest, same⟩ | ⟨rest, same⟩) <;> cases same
      · exact notOpen rest rfl rfl
      · exact notClose rest rfl rfl
    have noMark' := not_beginsWithMark_blotted noMark depth
    have place : pos.within c = pos.withinAll [c] := rfl
    rw [ih, place, CommentEnd.prepend_ofPlain _ (endsInMark_cons noMark'), blotted_cons noMark,
      closesAfter?_cons noMark']
    rfl

/-- A comment that is closed is its text and what follows, and it is closed at the same place whatever follows. -/
theorem readComment_closed {depth : Nat} {pos after : Cursor} {source text rest : List Char}
    (read : readComment depth pos source = .closed text rest after) :
    source = text ++ rest ∧ ∀ tail, readComment depth pos (text ++ tail) = .closed text tail after := by
  fun_induction readComment depth pos source generalizing text with
  | case1 => cases read
  | case2 => cases read
  | case3 depth pos c more ih =>
    cases inside : readComment (depth + 1) ((pos.forward 2).within c) more <;>
      simp [inside, CommentEnd.prepend] at read
    obtain ⟨rfl, rfl, rfl⟩ := read
    obtain ⟨split, again⟩ := ih inside
    simp [readComment, again, CommentEnd.prepend, split]
  | case4 =>
    cases read
    simp [readComment]
  | case5 => cases read
  | case6 pos depth c more ih =>
    cases inside : readComment depth ((pos.forward 2).within c) more <;> simp [inside, CommentEnd.prepend] at read
    obtain ⟨rfl, rfl, rfl⟩ := read
    obtain ⟨split, again⟩ := ih inside
    simp [readComment, again, CommentEnd.prepend, split]
  | case7 depth pos c more notOpen notClose ih =>
    cases inside : readComment depth (pos.within c) more with
    | closed inner =>
      simp only [inside, CommentEnd.prepend, CommentEnd.closed.injEq] at read
      obtain ⟨rfl, rfl, rfl⟩ := read
      obtain ⟨rfl, again⟩ := ih inside
      refine ⟨rfl, fun tail => ?_⟩
      cases inner with
      | nil => simpa [readComment] using again []
      | cons =>
        rw [List.singleton_append, List.cons_append, readComment, again]
        · rfl
        · rintro _ rfl ⟨⟩
          exact notOpen _ rfl rfl
        · rintro _ rfl ⟨⟩
          exact notClose _ rfl rfl
    | unclosed | nothingAfterMark => simp [inside, CommentEnd.prepend] at read

/-! ### Nested marks that stand apart -/

/-- If nested marks stand apart, what is blotted out makes no difference. -/
theorem closesAfter?_blotted (depth : Nat) (text : List Char) (apart : MarksApart depth text) :
    closesAfter? depth (blotted depth text) = closesAfter? depth text ∧
      (closesAfter? depth text = none → ¬ EndsInMark (blotted depth text)) := by
  fun_induction blotted depth text with
  | case1 => simp [EndsInMark]
  | case2 => simp [MarksApart] at apart
  | case3 depth _ more ih =>
    obtain ⟨-, noMark, inner⟩ := apart
    obtain ⟨same, unmarked⟩ := ih ((marksApart_cons noMark _).mp inner)
    have blank := closesAfter?_cons (not_beginsWithMark_blank (blotted (depth + 1) more)) (depth + 1)
    have plain := closesAfter?_cons noMark (depth + 1)
    rw [closesAfter?, closesAfter?, blank, plain, same, endsInMark_nested]
    refine ⟨rfl, ?_⟩
    simpa using unmarked
  | case4 => simp [closesAfter?]
  | case5 => simp [MarksApart] at apart
  | case6 depth _ more ih =>
    obtain ⟨-, noMark, inner⟩ := apart
    obtain ⟨same, unmarked⟩ := ih ((marksApart_cons noMark _).mp inner)
    have blank := closesAfter?_cons (not_beginsWithMark_blank (blotted depth more)) depth
    have plain := closesAfter?_cons noMark depth
    rw [closesAfter?, closesAfter?, blank, plain, same, endsInMark_nested]
    refine ⟨rfl, ?_⟩
    simpa using unmarked
  | case7 depth c more notOpen notClose notNested ih =>
    have noMark : ¬ BeginsWithMark (c :: more) := by
      rintro (⟨rest, same⟩ | ⟨rest, same⟩) <;> cases same
      · exact notOpen rest rfl rfl
      · cases depth with
        | zero => exact notClose rest rfl rfl rfl
        | succ depth => exact notNested depth rest rfl rfl rfl
    have noMark' := not_beginsWithMark_blotted noMark depth
    obtain ⟨same, unmarked⟩ := ih ((marksApart_cons noMark _).mp apart)
    rw [closesAfter?_cons noMark', closesAfter?_cons noMark, same, endsInMark_cons noMark']
    refine ⟨rfl, ?_⟩
    simpa using unmarked

/-! ### Comments of a source -/

theorem closesAfter?_le {depth n : Nat} {text : List Char} (closed : closesAfter? depth text = some n) :
    n ≤ text.length := by
  fun_induction closesAfter? depth text generalizing n with
  | case1 => cases closed
  | case2 depth rest ih | case4 depth rest ih | case5 depth c rest _ _ _ ih =>
    obtain ⟨k, inner, rfl⟩ := Option.map_eq_some_iff.mp closed
    have := ih inner
    simp; omega
  | case3 =>
    cases closed
    simp

/-- What is read from a comment on whose text ends after a number of characters, or does not end at all. In the first
case the reading goes on right behind it; in the second the comment takes all that is left, and is reported. -/
def Scan.ofComment (pos : Cursor) (text : List Char) : Option Nat → Scan
  | some n =>
    let after := (pos.forward 2).withinAll (text.take n)
    Scan.andThen ⟨[.blockComment ('/' :: '*' :: text.take n)], after, none⟩ (scanFrom after (text.drop n))
  | none =>
    let after := (pos.forward 2).withinAll text
    ⟨[.rejected ('/' :: '*' :: text) after.line .openComment], after, none⟩

theorem Scan.reports_ofComment_none (pos : Cursor) (text : List Char) :
    (ofComment pos text none).reports =
      [⟨.line ((pos.forward 2).withinAll text).line, "Unterminated block comment."⟩] := rfl

theorem Scan.ofComment_inj {pos : Cursor} {text : List Char} {end? other? : Option Nat}
    (inside : ∀ n, end? = some n → n ≤ text.length) (inside' : ∀ n, other? = some n → n ≤ text.length)
    (same : ofComment pos text end? = ofComment pos text other?) : end? = other? := by
  have first := congrArg (·.segments.head?) same
  cases end? with
  | none =>
    cases other? with
    | none => rfl
    | some => simp [ofComment, andThen] at first
  | some n =>
    cases other? with
    | none => simp [ofComment, andThen] at first
    | some k =>
      have taken : text.take n = text.take k := by simpa [ofComment, andThen] using first
      have lengths := congrArg List.length taken
      simp only [List.length_take, Nat.min_eq_left (inside n rfl), Nat.min_eq_left (inside' k rfl)] at lengths
      rw [lengths]

theorem scanFrom_comment (pos : Cursor) (text : List Char) :
    scanFrom pos ('/' :: '*' :: text) =
      if closesAfter? 0 (blotted 0 text) = none ∧ EndsInMark (blotted 0 text) then
        ⟨[], ((pos.forward 2).withinAll text).forward 1, some .nothingAfterMark⟩
      else .ofComment pos text (closesAfter? 0 (blotted 0 text)) := by
  have step : readSegment pos '/' ('*' :: text) = readSlash pos ('*' :: text) := rfl
  have read := readComment_eq 0 (pos.forward 2) text
  cases closed : closesAfter? 0 (blotted 0 text) with
  | some =>
    rw [closed, CommentEnd.ofPlain] at read
    simp only [readSlash, read] at step
    rw [scanFrom_of_segment step]
    simp [Scan.ofComment, Scan.andThen]
  | none =>
    rw [closed, CommentEnd.ofPlain] at read
    by_cases ends : EndsInMark (blotted 0 text)
    · rw [if_pos ends] at read
      simp only [readSlash, read] at step
      rw [scanFrom_of_fault step, if_pos ⟨rfl, ends⟩]
    · rw [if_neg ends] at read
      simp only [readSlash, read] at step
      rw [scanFrom_of_segment step, if_neg (fun both => ends both.2)]
      simp [Scan.ofComment, scanFrom]

/-- Where block comments end. From a comment on, the scanner reads what the plain reading of the blotted text says, with
one report if that text is not closed, and meets a fault if it also ends in a mark. It reads what the plain reading of
the text itself says exactly if blotting moves neither the end nor makes this fault, and so in particular if nested
marks stand apart. -/
theorem block_comments_blotted (pos : Cursor) (text : List Char) :
    let seen := blotted 0 text
    scanFrom pos ('/' :: '*' :: text) =
        (if closesAfter? 0 seen = none ∧ EndsInMark seen then
          ⟨[], ((pos.forward 2).withinAll text).forward 1, some .nothingAfterMark⟩
        else .ofComment pos text (closesAfter? 0 seen)) ∧
      (closesAfter? 0 seen = none → ¬ EndsInMark seen → (scanFrom pos ('/' :: '*' :: text)).reports =
        [⟨.line ((pos.forward 2).withinAll text).line, "Unterminated block comment."⟩]) ∧
      (scanFrom pos ('/' :: '*' :: text) = .ofComment pos text (closesAfter? 0 text) ↔
        closesAfter? 0 seen = closesAfter? 0 text ∧ (closesAfter? 0 text = none → ¬ EndsInMark seen)) ∧
      (MarksApart 0 text → scanFrom pos ('/' :: '*' :: text) = .ofComment pos text (closesAfter? 0 text)) := by
  intro seen
  have exact_iff : scanFrom pos ('/' :: '*' :: text) = .ofComment pos text (closesAfter? 0 text) ↔
      closesAfter? 0 seen = closesAfter? 0 text ∧ (closesAfter? 0 text = none → ¬ EndsInMark seen) := by
    rw [scanFrom_comment pos text]
    constructor
    · intro same
      by_cases fault : closesAfter? 0 seen = none ∧ EndsInMark seen
      · rw [if_pos fault] at same
        have silent := congrArg Scan.segments same
        cases plain : closesAfter? 0 text <;> simp [plain, Scan.ofComment, Scan.andThen] at silent
      · rw [if_neg fault] at same
        have inside : ∀ n, closesAfter? 0 seen = some n → n ≤ text.length := by
          intro n closed
          rw [← length_blotted 0 text]
          exact closesAfter?_le closed
        have equal := Scan.ofComment_inj inside (fun n => closesAfter?_le) same
        refine ⟨equal, ?_⟩
        intro unclosed ends
        exact fault ⟨equal.trans unclosed, ends⟩
    · rintro ⟨equal, unmarked⟩
      rw [if_neg, equal]
      rintro ⟨unclosed, ends⟩
      exact unmarked (equal ▸ unclosed) ends
  refine ⟨scanFrom_comment pos text, ?_, exact_iff, ?_⟩
  · intro unclosed unmarked
    rw [scanFrom_comment pos text, if_neg fun both => unmarked both.2, unclosed, Scan.reports_ofComment_none]
  · intro apart
    exact exact_iff.mpr (closesAfter?_blotted 0 text apart)

/-- A star behind a nested mark is passed over, so the mark that it begins is not seen: read plainly, the comment ends
before the name, but the scanner takes the name for a part of it. -/
theorem nested_comment_runs_on :
    closesAfter? 0 " a /**/ b */ x".toList = some 12 ∧
      (scan "/* a /**/ b */ x").reports = [⟨.line 1, "Unterminated block comment."⟩] := by
  have unclosed : closesAfter? 0 (blotted 0 " a /**/ b */ x".toList) = none := by cbv
  have unmarked : ¬ EndsInMark (blotted 0 " a /**/ b */ x".toList) := by
    have seen : blotted 0 " a /**/ b */ x".toList = " a /* / b */ x".toList := by cbv
    rw [seen]
    decide
  have reported := (block_comments_blotted .start " a /**/ b */ x".toList).2.1 unclosed unmarked
  have line : ((Cursor.start.forward 2).withinAll " a /**/ b */ x".toList).line = 1 := by cbv
  rw [line] at reported
  exact ⟨by cbv, reported⟩

end LoxLang
