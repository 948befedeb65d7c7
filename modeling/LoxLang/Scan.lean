import LoxLang.Segment

/-!
# Scanning

Cuts a whole source into its segments. `scan` ends because every segment takes at least one character.
-/

namespace LoxLang

theorem length_dropWhile_le (p : Char → Bool) (text : List Char) : (text.dropWhile p).length ≤ text.length :=
  (List.dropWhile_suffix p).length_le

/-- A comment that is closed leaves no more than it was given. -/
theorem readComment_length_le {depth : Nat} {pos after : Cursor} {source text rest : List Char}
    (h : readComment depth pos source = .closed text rest after) : rest.length ≤ source.length := by
  fun_induction readComment depth pos source generalizing text with
  | case1 => cases h
  | case2 => cases h
  | case3 depth pos c more ih =>
    cases hr : readComment (depth + 1) ((pos.forward 2).within c) more <;> simp [hr, CommentEnd.prepend] at h
    obtain ⟨-, rfl, rfl⟩ := h
    have := ih hr
    simp; omega
  | case4 => cases h; simp; omega
  | case5 => cases h
  | case6 pos depth c more ih =>
    cases hr : readComment depth ((pos.forward 2).within c) more <;> simp [hr, CommentEnd.prepend] at h
    obtain ⟨-, rfl, rfl⟩ := h
    have := ih hr
    simp; omega
  | case7 depth pos c more _ _ ih =>
    cases hr : readComment depth (pos.within c) more <;> simp [hr, CommentEnd.prepend] at h
    obtain ⟨-, rfl, rfl⟩ := h
    have := ih hr
    simp; omega

theorem readSlash_length_le {pos after : Cursor} {source rest : List Char} {s : Segment}
    (h : readSlash pos source = .segment s rest after) : rest.length ≤ source.length := by
  unfold readSlash at h
  split at h
  · rename_i more
    have := length_dropWhile_le (· ≠ '\n') more
    cases h; simp_all; omega
  · rename_i more
    split at h
    · rename_i hc
      have := readComment_length_le hc
      cases h; simp; omega
    · cases h; simp
    · cases h
  · cases h; simp

theorem readString_length_le {pos after : Cursor} {source rest : List Char} {s : Segment}
    (h : readString pos source = .segment s rest after) : rest.length ≤ source.length := by
  unfold readString at h
  simp only at h
  split at h
  · cases h; simp
  · rename_i mark more hd
    have := length_dropWhile_le (· ≠ stringMark) source
    rw [hd] at this
    cases h; simp at this; omega

theorem readNumeral_length_lt {pos after : Cursor} {c : Char} {source rest : List Char} {s : Segment}
    (digit : Text.isDigit c = true)
    (h : readNumeral pos (c :: source) = .segment s rest after) : rest.length ≤ source.length := by
  have drop : (c :: source).dropWhile Text.isDigit = source.dropWhile Text.isDigit := by simp [digit]
  have whole := length_dropWhile_le Text.isDigit source
  have short : (splitNumeral (c :: source)).2.length ≤ source.length := by
    unfold splitNumeral
    rw [drop]
    split
    · rename_i d more hd
      have fraction := length_dropWhile_le Text.isDigit (d :: more)
      rw [hd] at whole
      split
      · simp_all
        omega
      · simp_all
    · simpa using whole
  unfold readNumeral at h
  simp only at h
  split at h
  · cases h; exact short
  · cases h

/-- Reading a segment takes its first character, and maybe more. -/
theorem readSegment_length_le {pos after : Cursor} {c : Char} {source rest : List Char} {s : Segment}
    (h : readSegment pos c source = .segment s rest after) : rest.length ≤ source.length := by
  unfold readSegment at h
  split at h
  · cases h; simp
  · split at h
    · cases h; simp
    · cases h; simp
  · split at h
    · exact readSlash_length_le h
    · split at h
      · cases h; simp
      · split at h
        · cases h; simp
        · split at h
          · exact readString_length_le h
          · split at h
            · rename_i digit
              exact readNumeral_length_lt digit h
            · split at h
              · rename_i letter
                have := length_dropWhile_le Text.isAlphanumeric source
                simp only [readWord, ScanStep.token, letter, List.dropWhile_cons, if_true] at h
                cases h; exact this
              · cases h; simp

/-- The segments of a source, the position after the last of them, and the fault that ended the reading, if one did. -/
structure Scan where
  segments : List Segment
  finish : Cursor
  fault : Option ScanFault
  deriving Inhabited

/-- Reads segments from a position on. -/
def scanFrom (pos : Cursor) (source : List Char) : Scan :=
  match source with
  | [] => ⟨[], pos, none⟩
  | c :: rest =>
    match _h : readSegment pos c rest with
    | .fault f pos => ⟨[], pos, some f⟩
    | .segment s rest' after =>
      let more := scanFrom after rest'
      ⟨s :: more.segments, more.finish, more.fault⟩
termination_by source.length
decreasing_by
  have := readSegment_length_le _h
  simp; omega

def scan (source : String) : Scan := scanFrom .start source.toList

namespace Scan

/-- The token after all others. -/
def endToken (s : Scan) : Token := ⟨.endOfFile, "", .nil, s.finish.line⟩

/-- The tokens among the segments. -/
def read (s : Scan) : List Token := s.segments.filterMap Segment.token?

/-- All tokens; the token for the end of the source is there if no fault came before it. -/
def tokens (s : Scan) : List Token :=
  if s.fault.isSome then s.read else s.read ++ [s.endToken]

/-- What is reported about the source, in order. -/
def reports (s : Scan) : List Report := s.segments.filterMap Segment.report?

end Scan
end LoxLang
