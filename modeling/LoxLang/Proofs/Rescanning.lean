import LoxLang.Proofs.Segmentation

/-!
Scanning undoes the writing of tokens. Every token that is read from some source is read again from its own text, as
long as a blank or nothing follows: a blank extends no word and no numeral, makes no longer operator, and starts no
comment. So the texts of the tokens of a source, with a blank between two of them, are read as the same tokens. Only
the lines can differ.
-/

namespace LoxLang

variable {c : Char} {text : List Char}

/-- What a token says: its kind, how it is written, and the value it stands for. Its line is left out. -/
def Token.content (t : Token) : TokenKind × String × Literal := (t.kind, t.lexeme, t.literal)

/-- Nothing follows, or a blank does. -/
def Parted (tail : List Char) : Prop := ∀ c ∈ tail.head?, c = ' '

theorem parted_nil : Parted [] := by simp [Parted]

theorem parted_blank (more : List Char) : Parted (' ' :: more) := by simp [Parted]

/-- The token is read from its own text at any place, if nothing or a blank follows. -/
def Token.Rereads (t : Token) : Prop :=
  ∃ c body, t.lexeme.toList = c :: body ∧ ∀ pos tail, Parted tail →
    ∃ after : Cursor, readSegment pos c (body ++ tail) = .segment (.token { t with line := after.line }) tail after

/-- Every token that is read from some source is read again from its own text: in front of a blank it has its form, too. -/
theorem rereads_of_formed {t : Token} {rest : List Char} (formed : (Segment.token t).Formed rest) : t.Rereads := by
  obtain ⟨c, body, spelled⟩ := List.exists_cons_of_ne_nil formed.text_ne_nil
  refine ⟨c, body, spelled, fun pos tail parted => ?_⟩
  have again : (Segment.token t).Formed tail := by
    refine formed.before (fun d first => .inr (.inl (parted d first))) ?_
    rintro d more rfl
    cases parted '.' rfl
  exact readSegment_of_formed again rfl (by rw [spelled, List.cons_append]) pos

/-- Tokens that are read again from their own texts are read again from these texts with blanks between them, by
induction on the tokens. -/
theorem scanFrom_spaced {ts : List Token} (each : ∀ t ∈ ts, t.Rereads) (pos : Cursor) :
    let again := scanFrom pos ([' '].intercalate (ts.map fun t => t.lexeme.toList))
    again.fault = none ∧ again.reports = [] ∧ again.read.map Token.content = ts.map Token.content := by
  induction ts generalizing pos with
  | nil => simp [scanFrom, Scan.reports, Scan.read]
  | cons t rest ih =>
    obtain ⟨c, body, spelled, reads⟩ := each t (by simp)
    have others := ih fun t member => each t (by simp [member])
    cases rest with
    | nil =>
      obtain ⟨after, read⟩ := reads pos [] parted_nil
      rw [List.append_nil] at read
      simp only [List.map_cons, List.map_nil, List.intercalate_singleton, spelled]
      rw [scanFrom_of_segment read]
      simp [scanFrom, Scan.reports, Scan.read, Segment.report?, Segment.token?, Token.content]
    | cons u more =>
      let tail := [' '].intercalate ((u :: more).map fun t => t.lexeme.toList)
      obtain ⟨after, read⟩ := reads pos (' ' :: tail) (parted_blank tail)
      obtain ⟨finished, quiet, same⟩ := others (after.forward 1)
      have blank : readSegment after ' ' tail = .segment (.blank ' ') tail (after.forward 1) := rfl
      have whole : [' '].intercalate ((t :: u :: more).map fun t => t.lexeme.toList) = c :: (body ++ ' ' :: tail) := by
        simp [List.intercalate_cons_cons, spelled, tail]
      rw [whole, scanFrom_of_segment read, scanFrom_of_segment blank]
      refine ⟨finished, quiet, ?_⟩
      rw [List.map_cons, ← same]
      rfl

theorem rereads_of_mem_read (source : String) : ∀ t ∈ (scan source).read, t.Rereads :=
  forall_mem_read (fun _ _ => rereads_of_formed) source

/-- The texts of the tokens that are read, with single blanks between them. -/
def Scan.spaced (s : Scan) : String := " ".intercalate (s.read.map Token.lexeme)

theorem Scan.toList_spaced (s : Scan) : s.spaced.toList = [' '].intercalate (s.read.map fun t => t.lexeme.toList) := by
  rw [Scan.spaced, String.toList_intercalate, List.map_map]
  rfl

/-- Scanning undoes the writing of tokens: the texts of the tokens of any source, joined by single blanks, are read
without a fault and without a report, and as tokens of the same kinds, texts and values, followed by the token for the
end. -/
theorem scan_spaced (source : String) :
    (scan (scan source).spaced).fault = none ∧ (scan (scan source).spaced).reports = [] ∧
      (scan (scan source).spaced).tokens.map Token.content =
        (scan source).read.map Token.content ++ [(.endOfFile, "", .nil)] := by
  have each := rereads_of_mem_read source
  obtain ⟨finished, quiet, same⟩ := scanFrom_spaced each .start
  rw [← Scan.toList_spaced] at finished quiet same
  refine ⟨finished, quiet, ?_⟩
  rw [Scan.tokens, show (scan _).fault = none from finished]
  simp only [Option.isSome_none, Bool.false_eq_true, if_false, List.map_append]
  exact congrArg (· ++ _) same

end LoxLang
