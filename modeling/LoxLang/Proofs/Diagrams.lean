import LoxLang.Proofs.PrintedPrograms

/-!
Diagrams and the trees they show. A text is drawn element by element, in preorder, until the diagram is full: it shows the
first elements of the tree that the text is read as, each below the node of its head. Because nodes are counted through
all diagrams of a program, a diagram is the one of its statement alone as long as the nodes before leave room for it.
-/

namespace LoxLang.Diagram

open Text (isBlank trimBy)

/-- A head or an atom of a tree, with the place of its enclosing head in preorder. -/
structure Element where
  parent : Option Nat
  text : List Char

namespace Tree

mutual

/-- The elements of a tree in preorder, with the place of the first one given. -/
def elements (parent : Option Nat) (place : Nat) : Tree → List Element
  | atom text => [⟨parent, text⟩]
  | node head parts => ⟨parent, head⟩ :: elementsAll place (place + 1) parts

def elementsAll (parent place : Nat) : List Tree → List Element
  | [] => []
  | t :: rest =>
    t.elements (some parent) place ++ elementsAll parent (place + (t.elements (some parent) place).length) rest

end

end Tree

/-- What is drawn for elements, the first one as node `base + place + 1`. -/
def marksOf (base place : Nat) : List Element → List Mark
  | [] => []
  | e :: rest =>
    .node (nodeName (base + place + 1)) (label e.text) ::
      ((e.parent.map fun parent => Mark.edge (nodeName (base + parent + 1)) (nodeName (base + place + 1))).toList ++
        marksOf base (place + 1) rest)

theorem marksOf_append (base place : Nat) (es more : List Element) :
    marksOf base place (es ++ more) = marksOf base place es ++ marksOf base (place + es.length) more := by
  induction es generalizing place with
  | nil => rfl
  | cons e rest ih =>
    have next : place + 1 + rest.length = place + (e :: rest).length := by simp only [List.length_cons]; omega
    simp [marksOf, ih, next]

/-- The elements that are drawn for a text. -/
def elementsOf (n : Nat) (parent : Option Nat) (place : Nat) (text : List Char) : List Element :=
  match readTree n text with
  | none => []
  | some t => t.elements parent place

/-- Different numbers give different names: the digits tell the number. -/
theorem nodeName_injective : Function.Injective nodeName := by
  intro a b same
  have spelled (n : Nat) : nodeName n = "node" ++ String.ofList (Nat.toDigits 10 n) := by
    have filled : 1 - (Nat.toDigits 10 n).length = 0 := Nat.sub_eq_zero_of_le Nat.length_toDigits_pos
    simp [nodeName, Number.integerText, Number.padded, filled]
  have digits : Nat.toDigits 10 a = Nat.toDigits 10 b := by simpa [spelled, ← String.toList_inj] using same
  rw [← Nat.ofDigitChars_toDigits (b := 10) (n := a) (by decide) (by decide), digits]
  exact Nat.ofDigitChars_toDigits (by decide) (by decide)

namespace Drawing

variable {d d₁ d₂ : Drawing} {base place : Nat} {es more : List Element}

/-- Every head that has been visited is among the nodes drawn so far. -/
def Tidy (d : Drawing) : Prop := ∀ name ∈ d.visited, ∃ number ≤ d.count, name = nodeName number

theorem tidy_blank (count : Nat) : (blank count).Tidy := nofun

/-- So the next node has not been visited. -/
theorem Tidy.next_not_mem (tidy : d.Tidy) : nodeName (d.count + 1) ∉ d.visited := by
  intro visited
  obtain ⟨number, drawn, same⟩ := tidy _ visited
  rw [← nodeName_injective same] at drawn
  omega

theorem Tidy.grown (tidy : d.Tidy) (grows : d.count ≤ d₁.count)
    (new : ∀ name ∈ d₁.visited, name = nodeName d₁.count ∨ name ∈ d.visited) : d₁.Tidy := by
  intro name visited
  rcases new name visited with rfl | before
  · exact ⟨_, le_rfl, rfl⟩
  · obtain ⟨number, drawn, same⟩ := tidy name before
    exact ⟨number, drawn.trans grows, same⟩

/-- As many of the elements have been drawn as there was room for. -/
structure Shows (d : Drawing) (base place : Nat) (es : List Element) (d₁ : Drawing) : Prop where
  tidy : d₁.Tidy
  count : d₁.count = d.count + (es.take (maxNodes + 1 - d.count)).length
  marks : d₁.marks = d.marks ++ marksOf base place (es.take (maxNodes + 1 - d.count))

theorem shows_nil (tidy : d.Tidy) : d.Shows base place [] d := ⟨tidy, by simp, by simp [marksOf]⟩

theorem shows_of_full (tidy : d.Tidy) (full : maxNodes < d.count) : d.Shows base place es d := by
  have none : maxNodes + 1 - d.count = 0 := by omega
  exact ⟨tidy, by simp [none], by simp [none, marksOf]⟩

theorem Shows.append (first : d.Shows base place es d₁) (second : d₁.Shows base (place + es.length) more d₂) :
    d.Shows base place (es ++ more) d₂ := by
  obtain ⟨-, count, marks⟩ := first
  obtain ⟨tidy, count', marks'⟩ := second
  have room : maxNodes + 1 - d₁.count = maxNodes + 1 - d.count - es.length := by
    rw [List.length_take] at count
    omega
  rw [room] at count' marks'
  by_cases fits : es.length ≤ maxNodes + 1 - d.count
  · rw [List.take_of_length_le fits] at count marks
    refine ⟨tidy, ?_, ?_⟩ <;> rw [List.take_append, List.take_of_length_le fits]
    · rw [count', count, List.length_append, Nat.add_assoc]
    · rw [marks', marks, marksOf_append, List.append_assoc]
  · have none : maxNodes + 1 - d.count - es.length = 0 := by omega
    rw [none, List.take_zero] at count' marks'
    refine ⟨tidy, ?_, ?_⟩ <;> rw [List.take_append, none, List.take_zero, List.append_nil]
    · rw [count', count, List.length_nil, Nat.add_zero]
    · rw [marks', marks, marksOf, List.append_nil]

/-- A node is drawn, and at most its own name is visited. -/
theorem shows_add (tidy : d.Tidy) (room : ¬maxNodes < d.count) (count : d.count = base + place) (parent : Option Nat)
    (text : List Char) {visited : List String}
    (new : ∀ name ∈ visited, name = nodeName (d.count + 1) ∨ name ∈ d.visited) :
    d.Shows base place [⟨parent, text⟩]
      ({ d with visited := visited }.add (parent.map fun p => nodeName (base + p + 1)) text) := by
  have one : [(⟨parent, text⟩ : Element)].take (maxNodes + 1 - d.count) = [⟨parent, text⟩] :=
    List.take_of_length_le (by simp; omega)
  refine ⟨tidy.grown (Nat.le_succ _) new, by rw [one]; rfl, ?_⟩
  rw [one]
  cases parent <;> simp [add, count, marksOf]

end Drawing

theorem drawText_of_full {d : Drawing} (full : maxNodes < d.count) (n : Nat) (parent : Option String) (text : List Char) :
    drawText n parent d text = d := by
  cases n with
  | zero => rfl
  | succ => exact if_pos full

theorem foldl_drawText_of_full {d : Drawing} (full : maxNodes < d.count) (n : Nat) (parent : Option String)
    (texts : List (List Char)) : texts.foldl (drawText n parent) d = d := by
  induction texts with
  | nil => rfl
  | cons _ _ ih => rw [List.foldl_cons, drawText_of_full full, ih]

theorem shows_foldl_drawText {n base : Nat}
    (each : ∀ (parent : Option Nat) (text : List Char) {d : Drawing} {place : Nat}, d.Tidy → d.count = base + place →
      d.Shows base place (elementsOf n parent place text)
        (drawText n (parent.map fun p => nodeName (base + p + 1)) d text))
    (parent : Nat) (texts : List (List Char)) {d : Drawing} {place : Nat} (tidy : d.Tidy) (count : d.count = base + place) :
    d.Shows base place (Tree.elementsAll parent place (texts.filterMap (readTree n)))
      (texts.foldl (drawText n (some (nodeName (base + parent + 1)))) d) := by
  induction texts generalizing d place with
  | nil => exact Drawing.shows_nil tidy
  | cons text _ ih =>
    have first := each (some parent) text tidy count
    rw [List.foldl_cons]
    rw [elementsOf, Option.map_some] at first
    cases read : readTree n text with
    | none =>
      rw [List.filterMap_cons_none read]
      rw [read] at first
      simpa using first.append (ih first.tidy (by simpa [count] using first.count))
    | some t =>
      rw [List.filterMap_cons_some read, Tree.elementsAll]
      rw [read] at first
      change d.Shows base place (t.elements (some parent) place) _ at first
      refine first.append ?_
      by_cases fits : (t.elements (some parent) place).length ≤ maxNodes + 1 - d.count
      · refine ih first.tidy ?_
        rw [first.count, List.take_of_length_le fits, count, Nat.add_assoc]
      · have full := first.count
        rw [List.length_take] at full
        rw [foldl_drawText_of_full (by omega)]
        exact Drawing.shows_of_full first.tidy (by omega)

/-- A text is drawn as the elements of the tree that it is read as. -/
theorem shows_drawText {base : Nat} (n : Nat) (parent : Option Nat) (text : List Char) {d : Drawing} {place : Nat}
    (tidy : d.Tidy) (count : d.count = base + place) :
    d.Shows base place (elementsOf n parent place text)
      (drawText n (parent.map fun p => nodeName (base + p + 1)) d text) := by
  induction n generalizing d place parent text with
  | zero => exact Drawing.shows_nil tidy
  | succ n ih =>
    by_cases full : maxNodes < d.count
    · rw [drawText_of_full full]
      exact Drawing.shows_of_full tidy full
    · rw [drawText, if_neg full, elementsOf, readTree]
      cases trim text with
      | nil => exact Drawing.shows_nil tidy
      | cons c inner =>
        by_cases parenthesis : c = '('
        · subst parenthesis
          simp only [if_neg tidy.next_not_mem]
          have head := Drawing.shows_add tidy full count parent (splitHead (trim inner.dropLast)).1
            fun _ => List.mem_cons.mp
          refine head.append ?_
          rw [count]
          refine shows_foldl_drawText (fun parent text _ _ tidy count => ih parent text tidy count) place _ ?_ ?_
          · rw [← count]
            exact head.tidy
          · rw [← Nat.add_assoc, ← count]
            rfl
        · simpa [parenthesis, Tree.elements] using
            Drawing.shows_add tidy full count parent (c :: inner) fun _ => .inr

def textElements (text : String) : List Element := elementsOf text.length none 0 text.toList

theorem shows_draw {d : Drawing} (tidy : d.Tidy) (text : String) :
    d.Shows d.count 0 (textElements text) (draw d none text) :=
  shows_drawText text.length none text.toList tidy rfl

/-! ### The diagrams of a program -/

/-- The number of nodes that all the statements have. -/
def nodeTotal (program : List Stmt) : Nat := (program.map fun s => (textElements s.printed).length).sum

theorem printed_begins (s : Stmt) : ∃ c rest, s.printed.toList = c :: rest ∧ isBlank c = false := by
  rw [Stmt.printed.eq_def]
  split
  case h_12 decl | h_13 decl | h_14 decl =>
    cases decl
    exact ⟨'(', _, toList_parenthesized .., rfl⟩
  case h_15 => exact ⟨'N', _, rfl, rfl⟩
  all_goals exact ⟨'(', _, toList_parenthesized .., rfl⟩

theorem textElements_printed_pos (s : Stmt) : 0 < (textElements s.printed).length := by
  obtain ⟨c, rest, spelled, noBlank⟩ := printed_begins s
  have filled : trim (c :: rest) ≠ [] := by simp [trim, trimBy, List.dropWhile_eq_nil_iff, noBlank]
  obtain ⟨t, read⟩ : ∃ t, readTree (rest.length + 1) (c :: rest) = some t := by
    rw [readTree]
    split
    · exact absurd ‹_› filled
    · exact ⟨_, rfl⟩
    · exact ⟨_, rfl⟩
  rw [textElements, ← String.length_toList, spelled, elementsOf, List.length_cons, read]
  cases t <;> simp [Tree.elements]

theorem count_draw {d : Drawing} (tidy : d.Tidy) (room : d.count ≤ maxNodes + 1) (text : String) :
    (draw d none text).count = min (maxNodes + 1) (d.count + (textElements text).length) := by
  rw [(shows_draw tidy text).count, List.length_take]
  omega

/-- The diagram of a statement begins at the number of nodes before it, and no head visited before has one of its
numbers. -/
theorem drawProgram_at (number : Nat) (before : List Stmt) (s : Stmt) (after : List Stmt) {d : Drawing} (tidy : d.Tidy)
    (room : d.count ≤ maxNodes + 1) :
    ∃ sheet, ∃ d₁ : Drawing, (drawProgram number d (before ++ s :: after))[before.length]? = some sheet ∧
      sheet.printed = s.printed ∧ d₁.Tidy ∧ d₁.count = min (maxNodes + 1) (d.count + nodeTotal before) ∧
      sheet.drawing = draw d₁.cleared none s.printed := by
  induction before generalizing number d with
  | nil => exact ⟨_, d, rfl, rfl, tidy, (Nat.min_eq_right room).symm, rfl⟩
  | cons first _ ih =>
    have drawn := shows_draw (d := d.cleared) tidy first.printed
    have counted : (draw d.cleared none first.printed).count =
        min (maxNodes + 1) (d.count + (textElements first.printed).length) := count_draw (d := d.cleared) tidy room _
    obtain ⟨sheet, d₁, found, printed, tidy₁, count, drawing⟩ :=
      ih (number + 1) drawn.tidy (counted ▸ Nat.min_le_left ..)
    refine ⟨sheet, d₁, found, printed, tidy₁, count.trans ?_, drawing⟩
    rw [counted, nodeTotal, nodeTotal, List.map_cons, List.sum_cons]
    omega

/-- The same mark between nodes that are numbered differently. -/
inductive Mark.Renamed (σ : Nat → Nat) : Mark → Mark → Prop where
  | node (number : Nat) (label : String) : Renamed σ (.node (nodeName number) label) (.node (nodeName (σ number)) label)
  | edge (source target : Nat) :
    Renamed σ (.edge (nodeName source) (nodeName target)) (.edge (nodeName (σ source)) (nodeName (σ target)))

/-- The diagrams are the same up to the numbers of the nodes. -/
def Drawing.Alike (d e : Drawing) : Prop :=
  ∃ σ : Nat → Nat, σ.Injective ∧ List.Forall₂ (Mark.Renamed σ) d.marks e.marks

def Mark.isNode : Mark → Bool
  | .node _ _ => true
  | .edge _ _ => false

theorem countP_marksOf (base place : Nat) (es : List Element) : (marksOf base place es).countP Mark.isNode = es.length := by
  induction es generalizing place with
  | nil => rfl
  | cons e _ ih =>
    obtain ⟨parent, text⟩ := e
    cases parent <;> simp [marksOf, List.countP_cons, Mark.isNode, ih]

theorem countP_isNode_eq {σ : Nat → Nat} {marks others : List Mark} (renamed : List.Forall₂ (Mark.Renamed σ) marks others) :
    marks.countP Mark.isNode = others.countP Mark.isNode := by
  induction renamed with
  | nil => rfl
  | cons same _ ih => cases same <;> simp [List.countP_cons, Mark.isNode, ih]

theorem renamed_marksOf (base place : Nat) (es : List Element) :
    List.Forall₂ (Mark.Renamed (base + ·)) (marksOf 0 place es) (marksOf base place es) := by
  induction es generalizing place with
  | nil => exact .nil
  | cons e _ ih =>
    have moved (k : Nat) : base + k + 1 = base + (0 + k + 1) := by omega
    obtain ⟨parent, text⟩ := e
    rw [marksOf, marksOf, moved]
    cases parent with
    | none => exact .cons (.node ..) (ih _)
    | some parent => exact .cons (.node ..) (.cons (by simp only [moved parent]; exact .edge ..) (ih _))

theorem alike_iff {d : Drawing} (tidy : d.Tidy) (room : d.count ≤ maxNodes + 1) (s : Stmt) :
    (draw (blank 0) none s.printed).Alike (draw d.cleared none s.printed) ↔
      d.count = 0 ∨ d.count + (textElements s.printed).length ≤ maxNodes + 1 := by
  have filled := textElements_printed_pos s
  have alone := shows_draw (Drawing.tidy_blank 0) s.printed
  have later := shows_draw (d := d.cleared) tidy s.printed
  rw [Drawing.Alike, alone.marks, later.marks]
  simp only [blank, Drawing.cleared, List.nil_append]
  constructor
  · rintro ⟨σ, -, renamed⟩
    have same := countP_isNode_eq renamed
    simp only [countP_marksOf, List.length_take] at same
    omega
  · intro fits
    have both : (textElements s.printed).take (maxNodes + 1 - 0) =
        (textElements s.printed).take (maxNodes + 1 - d.count) := by
      obtain first | fits := fits
      · rw [first]
      · rw [List.take_of_length_le (by omega), List.take_of_length_le (by omega)]
    exact ⟨(d.count + ·), fun a b => Nat.add_left_cancel, both ▸ renamed_marksOf ..⟩

/-- Every diagram of a program leaves only nodes visited that have been drawn. So the diagram of a statement is up to node
numbers the one of the statement alone if and only if it is the first, or no more than one node beyond the bound has been
drawn when it is complete. -/
theorem drawn_alone_iff (before : List Stmt) (s : Stmt) (after : List Stmt) :
    ∃ sheet, (drawProgram 0 (blank 0) (before ++ s :: after))[before.length]? = some sheet ∧ sheet.printed = s.printed ∧
      sheet.drawing.Tidy ∧
      ((draw (blank 0) none s.printed).Alike sheet.drawing ↔ before = [] ∨ nodeTotal (before ++ [s]) ≤ maxNodes + 1) := by
  obtain ⟨sheet, d, found, printed, tidy, count, drawing⟩ :=
    drawProgram_at 0 before s after (Drawing.tidy_blank 0) (Nat.zero_le _)
  refine ⟨sheet, found, printed, drawing ▸ (shows_draw (d := d.cleared) tidy _).tidy, ?_⟩
  rw [drawing, alike_iff tidy (count ▸ Nat.min_le_left ..), count]
  have filled := textElements_printed_pos s
  have empty : nodeTotal before = 0 ↔ before = [] := by
    cases before with
    | nil => simp [nodeTotal]
    | cons first => simp [nodeTotal, (textElements_printed_pos first).ne']
  have total : nodeTotal (before ++ [s]) = nodeTotal before + (textElements s.printed).length := by simp [nodeTotal]
  rw [total, ← empty, show (blank 0).count = 0 from rfl]
  omega

/-! ### The diagram of a printed statement -/

mutual

/-- Behind the first element of a tree, every element has its head before it. -/
theorem Tree.parent_before : ∀ (t : Tree) {parent : Option Nat} {place i : Nat} {e : Element},
    (t.elements parent place)[i]? = some e → (i = 0 ∧ e.parent = parent) ∨ ∃ p, e.parent = some p ∧ p < place + i
  | .atom _, _, _, 0, _, found => by
    cases found
    exact .inl ⟨rfl, rfl⟩
  | .atom _, _, _, _ + 1, _, found => by cases found
  | .node _ _, _, _, 0, _, found => by
    cases found
    exact .inl ⟨rfl, rfl⟩
  | .node _ parts, _, place, i + 1, _, found => by
    obtain ⟨p, isParent, before⟩ := Tree.parent_before_all parts (Nat.lt_succ_self place) found
    exact .inr ⟨p, isParent, by omega⟩
termination_by structural t => t

theorem Tree.parent_before_all : ∀ (parts : List Tree) {parent place i : Nat} {e : Element}, parent < place →
    (Tree.elementsAll parent place parts)[i]? = some e → ∃ p, e.parent = some p ∧ p < place + i
  | [], _, _, _, _, _, found => by cases found
  | t :: rest, parent, place, i, _, before, found => by
    rw [Tree.elementsAll, List.getElem?_append] at found
    split at found
    · obtain ⟨-, isParent⟩ | earlier := Tree.parent_before t found
      · exact ⟨parent, isParent, by omega⟩
      · exact earlier
    · obtain ⟨p, isParent, earlier⟩ := Tree.parent_before_all rest (by omega) found
      exact ⟨p, isParent, by omega⟩
termination_by structural parts => parts

end

theorem label_eq (text : List Char) : ∃ kind ∈ ["", "String: ", "Number: "], label text = kind ++ String.ofList text := by
  unfold label
  split
  · exact ⟨_, by simp, rfl⟩
  · split
    · exact ⟨_, by simp, rfl⟩
    · exact ⟨"", by simp, by simp⟩

/-- A statement of a program is drawn as its printed tree, the only tree of words and strings with its text: if only
nodes that were drawn have been visited, and there is room for all elements, in preorder one node for each with the next
number, and to every one but the first an edge from the node of its head, which has been drawn before. -/
theorem draw_printed {source : String} {program : List Stmt} {s : Stmt}
    (parsed : (parseProgram (scan source).tokens).result = .ok program) (member : s ∈ program) :
    ∃ t : Tree, (t.Formed ∧ t.text = s.printed.toList ∧ ∀ u : Tree, u.Formed → u.text = s.printed.toList → u = t) ∧
      (∀ d : Drawing, d.Tidy → d.count + (t.elements none 0).length ≤ maxNodes + 1 → (draw d none s.printed).Tidy ∧
        (draw d none s.printed).count = d.count + (t.elements none 0).length ∧
        (draw d none s.printed).marks = d.marks ++ marksOf d.count 0 (t.elements none 0)) ∧
      ∀ i e, (t.elements none 0)[i]? = some e →
        (if i = 0 then e.parent = none else ∃ p, e.parent = some p ∧ p < i) ∧
          ∃ kind ∈ ["", "String: ", "Number: "], label e.text = kind ++ String.ofList e.text := by
  obtain ⟨t, formed, same⟩ := (IsPart.program parsed member).isPrinted
  refine ⟨t, ⟨formed, same, fun u formed' same' => ?_⟩, fun d tidy room => ?_, fun i e found => ⟨?_, label_eq e.text⟩⟩
  · exact tree_eq_of_text_eq formed' formed (same'.trans same.symm)
  · have read : readTree s.printed.length t.text = some t := by
      refine readTree_text t formed _ ?_
      rw [same, String.length_toList]
    have all : (t.elements none 0).take (maxNodes + 1 - d.count) = t.elements none 0 := List.take_of_length_le (by omega)
    have drawn := shows_draw tidy s.printed
    rw [textElements, elementsOf, ← same, read] at drawn
    exact ⟨drawn.tidy, all ▸ drawn.count, all ▸ drawn.marks⟩
  · obtain ⟨rfl, isFirst⟩ | ⟨p, isParent, before⟩ := t.parent_before found
    · exact isFirst
    · rw [if_neg (by omega)]
      exact ⟨p, isParent, by omega⟩

/-- The tree of `(print (call f "a (b"))`. -/
def callTree : Tree :=
  .node "print".toList [.node "call".toList [.atom "f".toList, .atom "\"a (b\"".toList]]

/-- The last diagram that just fits. -/
theorem draw_printed_call :
    (parseProgram (scan "print f(\"a (b\");").tokens).result = .ok [.print callExpression] ∧
      (blank 997).Tidy ∧ (draw (blank 997) none (Stmt.print callExpression).printed).count = 1001 ∧
      (draw (blank 997) none (Stmt.print callExpression).printed).marks = marksOf 997 0 (callTree.elements none 0) := by
  have parsed : (parseProgram (scan "print f(\"a (b\");").tokens).result = .ok [.print callExpression] := by cbv
  have formed : callTree.Formed :=
    ⟨.of rfl, ⟨.of rfl, .word (.of rfl), @IsAtom.quoted "a (b".toList (by decide), trivial⟩, trivial⟩
  obtain ⟨t, ⟨-, -, unique⟩, drawn, -⟩ := draw_printed parsed (List.mem_singleton_self _)
  obtain rfl := unique callTree formed rfl
  exact ⟨parsed, Drawing.tidy_blank 997, (drawn (blank 997) (Drawing.tidy_blank 997) (by decide)).2⟩

end LoxLang.Diagram
