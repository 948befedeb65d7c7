import LoxLang.Proofs.Relining
import LoxLang.Proofs.Segmentation

/-!
Scanning a source that continues after the end of a line. A segment that is read without a report is read in the same
way when a new line follows the source, so the segments of the whole are those of the first part and then those of what
follows, on later lines.
-/

namespace LoxLang

variable {pos after : Cursor} {c : Char} {rest text source : List Char} {s : Segment} {first : String}

/-- The same column, some lines further down. -/
def Cursor.down (k : Nat) (pos : Cursor) : Cursor := ⟨pos.line + k, pos.column⟩

def Segment.down (k : Nat) : Segment → Segment
  | token t => token (t.reline (.lines (· + k)))
  | blank c => blank c
  | lineComment text => lineComment text
  | blockComment text => blockComment text
  | rejected text line error => rejected text (line + k) error

def ScanStep.down (k : Nat) : ScanStep → ScanStep
  | segment s rest after => segment (s.down k) rest (after.down k)
  | fault f pos => fault f (pos.down k)

def CommentEnd.down (k : Nat) : CommentEnd → CommentEnd
  | closed text rest after => closed text rest (after.down k)
  | unclosed text after => unclosed text (after.down k)
  | nothingAfterMark pos => nothingAfterMark (pos.down k)

def Scan.down (k : Nat) (s : Scan) : Scan := ⟨s.segments.map (Segment.down k), s.finish.down k, s.fault⟩

section Lines

variable (k : Nat)

@[simp]
theorem Cursor.forward_down (pos : Cursor) (count : Nat) : (pos.down k).forward count = (pos.forward count).down k := rfl

@[simp]
theorem Cursor.nextLine_down (pos : Cursor) : (pos.down k).nextLine = pos.nextLine.down k := by
  simp [Cursor.nextLine, Cursor.down, Nat.add_right_comm]

@[simp]
theorem Cursor.within_down (pos : Cursor) (c : Char) : (pos.down k).within c = (pos.within c).down k := by
  unfold Cursor.within
  split <;> simp

@[simp]
theorem Cursor.withinAll_down (pos : Cursor) (text : List Char) :
    (pos.down k).withinAll text = (pos.withinAll text).down k := by
  unfold Cursor.withinAll
  induction text generalizing pos with
  | nil => rfl
  | cons _ _ ih => simp [ih]

theorem CommentEnd.prepend_down (before : List Char) (e : CommentEnd) :
    (e.prepend before).down k = (e.down k).prepend before := by
  cases e <;> rfl

theorem readComment_down (depth : Nat) (pos : Cursor) (source : List Char) :
    readComment depth (pos.down k) source = (readComment depth pos source).down k := by
  fun_induction readComment depth pos source with
  | case1 => rfl
  | case2 => rfl
  | case3 _ _ _ _ ih => simp [readComment, ih, CommentEnd.prepend_down]
  | case4 => rfl
  | case5 => rfl
  | case6 _ _ _ _ ih => simp [readComment, ih, CommentEnd.prepend_down]
  | case7 _ _ _ _ _ _ ih =>
    rw [readComment]
    · simp [ih, CommentEnd.prepend_down]
    all_goals assumption

theorem readSlash_down (pos : Cursor) (rest : List Char) :
    readSlash (pos.down k) rest = (readSlash pos rest).down k := by
  unfold readSlash
  split
  · rfl
  · rename_i more
    rw [Cursor.forward_down, readComment_down]
    cases readComment 0 (pos.forward 2) more <;> rfl
  · rfl

theorem readString_down (pos : Cursor) (rest : List Char) :
    readString (pos.down k) rest = (readString pos rest).down k := by
  simp only [readString, Cursor.forward_down, Cursor.withinAll_down]
  split <;> rfl

theorem readNumeral_down (pos : Cursor) (text : List Char) :
    readNumeral (pos.down k) text = (readNumeral pos text).down k := by
  simp only [readNumeral, Cursor.forward_down]
  split <;> rfl

theorem readSegment_down (pos : Cursor) (c : Char) (rest : List Char) :
    readSegment (pos.down k) c rest = (readSegment pos c rest).down k := by
  unfold readSegment
  split
  · rfl
  · split <;> rfl
  · simp only [readSlash_down, readString_down, readNumeral_down, apply_ite (ScanStep.down k), Cursor.nextLine_down]
    rfl

theorem scanFrom_down (pos : Cursor) (source : List Char) :
    scanFrom (pos.down k) source = (scanFrom pos source).down k := by
  fun_induction scanFrom pos source with
  | case1 => simp [scanFrom, Scan.down]
  | case2 pos c rest f at_ step =>
    have moved : readSegment (pos.down k) c rest = .fault f (at_.down k) := by rw [readSegment_down, step]; rfl
    rw [scanFrom_of_fault moved]
    rfl
  | case3 pos c rest s rest' after step _ ih =>
    have moved : readSegment (pos.down k) c rest = .segment (s.down k) rest' (after.down k) := by
      rw [readSegment_down, step]
      rfl
    rw [scanFrom_of_segment moved, ih]
    rfl

theorem Segment.token?_down (s : Segment) : (s.down k).token? = s.token?.map (Token.reline (.lines (· + k))) := by
  cases s <;> rfl

theorem Segment.report?_down_eq_none (s : Segment) : (s.down k).report? = none ↔ s.report? = none := by
  cases s <;> simp [Segment.down, Segment.report?]

theorem Scan.read_down (s : Scan) : (s.down k).read = s.read.map (Token.reline (.lines (· + k))) := by
  simp only [Scan.read, Scan.down, List.filterMap_map, List.map_filterMap]
  congr 1
  funext segment
  exact Segment.token?_down k segment

end Lines

section Joined

variable {tail : List Char}

theorem Segment.Formed.append (formed : s.Formed rest) (quiet : s.report? = none) : s.Formed (rest ++ '\n' :: tail) := by
  cases s with
  | token =>
    refine formed.before ?_ ?_
    · cases rest <;> simp
    · intro d more left
      rcases rest with _ | ⟨c, _ | ⟨e, others⟩⟩ <;> cases left
      · exact .inl rfl
      · exact .inr ⟨others, rfl⟩
  | blank =>
    cases formed with
    | blank isBlank => exact .blank isBlank
  | lineComment =>
    cases formed with
    | lineComment oneLine ends =>
      refine .lineComment oneLine ?_
      cases rest with
      | nil => simp
      | cons => simpa using ends
  | blockComment =>
    cases formed with
    | blockComment closed => exact .blockComment closed
  | rejected => cases quiet

/-- A segment that is not reported is read in the same way in front of a new line. -/
theorem readSegment_append (read : readSegment pos c source = .segment s rest after) (quiet : s.report? = none) :
    readSegment pos c (source ++ '\n' :: tail) = .segment s (rest ++ '\n' :: tail) after := by
  obtain ⟨whole, formed, rfl, told⟩ := taken_readSegment read
  have whole' : c :: (source ++ '\n' :: tail) = s.text ++ (rest ++ '\n' :: tail) := by
    rw [← List.cons_append, whole, List.append_assoc]
  obtain ⟨after, again⟩ := readSegment_of_formed (formed.append quiet) quiet whole' pos
  have place := (taken_readSegment again).past
  rw [Cursor.past_onLine] at place
  rw [again, place, told.onLine_eq]

/-- A source that is read without reports and goes on in a new line is read as before, and then what follows. -/
theorem scanFrom_append (tail : List Char) (finished : (scanFrom pos source).fault = none)
    (quiet : (scanFrom pos source).reports = []) : scanFrom pos (source ++ '\n' :: tail) =
      (scanFrom pos source).andThen (scanFrom (scanFrom pos source).finish ('\n' :: tail)) := by
  fun_induction scanFrom pos source with
  | case1 => rfl
  | case2 => cases finished
  | case3 _ _ _ s _ _ step _ ih =>
    simp only [Scan.reports, List.filterMap_cons] at quiet
    have unreported : s.report? = none := by
      cases reported : s.report? with
      | none => rfl
      | some => simp [reported] at quiet
    rw [unreported] at quiet
    rw [List.cons_append, scanFrom_of_segment (readSegment_append step unreported), ih finished quiet]
    rfl

theorem Cursor.nextLine_eq_down (pos : Cursor) : pos.nextLine = Cursor.start.down pos.line := by
  simp [Cursor.nextLine, Cursor.start, Cursor.down, Nat.add_comm]

/-- The segments of two sources, the first of which is read without reports, and of the line end between them. -/
theorem scan_join (second : String) (finished : (scan first).fault = none) (quiet : (scan first).reports = []) :
    let rest := (scan second).down (scan first).finish.line
    scan (first ++ "\n" ++ second) = (scan first).andThen ⟨.blank '\n' :: rest.segments, rest.finish, rest.fault⟩ := by
  have whole : (first ++ "\n" ++ second).toList = first.toList ++ '\n' :: second.toList := by
    simp [String.toList_append]
  have line : readSegment (scan first).finish '\n' second.toList =
      .segment (.blank '\n') second.toList (scan first).finish.nextLine := rfl
  have behind : scanFrom (scan first).finish.nextLine second.toList = (scan second).down (scan first).finish.line := by
    rw [Cursor.nextLine_eq_down, scanFrom_down]
    rfl
  calc scan (first ++ "\n" ++ second)
    _ = scanFrom .start (first.toList ++ '\n' :: second.toList) := congrArg (scanFrom .start) whole
    _ = (scan first).andThen (scanFrom (scan first).finish ('\n' :: second.toList)) :=
      scanFrom_append second.toList finished quiet
    _ = _ := by rw [scanFrom_of_segment line, behind]

/-- The tokens of two sources, the first of which is read without reports. -/
theorem read_join (second : String) (finished : (scan first).fault = none) (quiet : (scan first).reports = []) :
    (scan (first ++ "\n" ++ second)).read =
      (scan first).read ++ (scan second).read.map (Token.reline (.lines (· + (scan first).finish.line))) := by
  rw [scan_join second finished quiet, ← Scan.read_down]
  simp only [Scan.read, Scan.andThen, List.filterMap_append]
  rfl

theorem reports_join {second : String} (finished : (scan first).fault = none) (quiet : (scan first).reports = [])
    (quietToo : (scan second).reports = []) : (scan (first ++ "\n" ++ second)).reports = [] := by
  rw [Scan.reports, scan_join second finished quiet, Scan.andThen, List.filterMap_append, List.append_eq_nil_iff]
  refine ⟨quiet, List.filterMap_eq_nil_iff.mpr fun s member => ?_⟩
  rcases List.mem_cons.mp member with rfl | member
  · rfl
  · obtain ⟨below, isSegment, rfl⟩ := List.mem_map.mp member
    have unreported := List.filterMap_eq_nil_iff.mp quietToo below isSegment
    exact (Segment.report?_down_eq_none _ below).mpr unreported

end Joined
end LoxLang
