import Mathlib
import LoxLang.Scan

/-!
Scanning in steps: the scan after one step, and scanning with a bound on the number of steps.
-/

namespace LoxLang

def Scan.andThen (before after : Scan) : Scan := ⟨before.segments ++ after.segments, after.finish, after.fault⟩

section
variable {pos after : Cursor} {c : Char} {rest rest' : List Char} {s : Segment}

theorem scanFrom_of_segment (step : readSegment pos c rest = .segment s rest' after) :
    scanFrom pos (c :: rest) =
      ⟨s :: (scanFrom after rest').segments, (scanFrom after rest').finish, (scanFrom after rest').fault⟩ := by
  rw [scanFrom]
  split <;> simp_all

theorem scanFrom_of_fault {at_ : Cursor} {f : ScanFault} (step : readSegment pos c rest = .fault f at_) :
    scanFrom pos (c :: rest) = ⟨[], at_, some f⟩ := by
  rw [scanFrom]
  split <;> simp_all

end

/-! ### Reading with a bound -/

/-- Reads some segments from a position on. -/
def scanWithin : Nat → Cursor → List Char → Scan
  | 0, pos, _ => ⟨[], pos, none⟩
  | _ + 1, pos, [] => ⟨[], pos, none⟩
  | n + 1, pos, c :: rest =>
    match readSegment pos c rest with
    | .fault f pos => ⟨[], pos, some f⟩
    | .segment s rest' after =>
      let more := scanWithin n after rest'
      ⟨s :: more.segments, more.finish, more.fault⟩

theorem scanWithin_eq {n : Nat} {pos : Cursor} {source : List Char} (enough : source.length ≤ n) :
    scanWithin n pos source = scanFrom pos source := by
  induction n generalizing pos source with
  | zero =>
    obtain rfl := List.length_eq_zero_iff.mp (Nat.le_zero.mp enough)
    rw [scanFrom, scanWithin]
  | succ n ih =>
    cases source with
    | nil => rw [scanFrom, scanWithin]
    | cons c rest =>
      rw [scanFrom, scanWithin]
      cases step : readSegment pos c rest with
      | fault => rfl
      | segment _ rest' =>
        have shorter := readSegment_length_le step
        rw [List.length_cons] at enough
        simp only [ih (show rest'.length ≤ n by omega)]

/-- Scans with a bound, so that what a fixed source is cut into can be computed. -/
def scanSteps (source : String) : Scan := scanWithin source.toList.length .start source.toList

theorem scanSteps_eq (source : String) : scanSteps source = scan source := scanWithin_eq (Nat.le_refl _)

end LoxLang
