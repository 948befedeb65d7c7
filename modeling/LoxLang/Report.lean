import LoxLang.Token

/-!
# Reports

What is wrong with a source is reported, not thrown: a report says where and what. A journal keeps the reports of an
entry in the order in which they were made.
-/

namespace LoxLang

/-- Where a report points: to a line, or to a token. -/
inductive Place where
  | line (n : Int)
  | token (t : Token)
  deriving Inhabited

/-- The place as a message shows it. -/
def Place.text : Place → String
  | .line n => Number.integerText n
  | .token t => t.text

/-- What is wrong, and where. -/
structure Report where
  place : Place
  message : String
  deriving Inhabited

/-- The line that is printed for a report. -/
def Report.text (r : Report) : String := "[" ++ r.place.text ++ "] Error: " ++ r.message

/-- A report as the parser makes it: one that is announced is printed at once, after all earlier ones. -/
structure Complaint where
  report : Report
  announced : Bool
  deriving Inhabited

/-- The reports made so far, in order. -/
structure Journal where
  reports : List Report
  deriving Inhabited

namespace Journal

def empty : Journal := ⟨[]⟩

def hasErrors (j : Journal) : Bool := !j.reports.isEmpty

def lines (j : Journal) : List String := j.reports.map Report.text

def add (j : Journal) (report : Report) : Journal := ⟨j.reports ++ [report]⟩

def addAll (j : Journal) (reports : List Report) : Journal := ⟨j.reports ++ reports⟩

/-- The journal with one more complaint, and the lines that are printed for it. -/
def complain (j : Journal) (complaint : Complaint) : Journal × List String :=
  let after := j.add complaint.report
  (after, if complaint.announced then after.lines else [])

/-- The journal with more complaints, and the lines that are printed for them. -/
def complainAll (j : Journal) : List Complaint → Journal × List String
  | [] => (j, [])
  | complaint :: more =>
    let (after, printed) := j.complain complaint
    let (final, rest) := after.complainAll more
    (final, printed ++ rest)

end Journal

/-- The lines that are printed when a failure is not the program's own error. -/
def failureLines (message : String) : List String := ["Error: " ++ message, "Detailed traceback:"]

end LoxLang
