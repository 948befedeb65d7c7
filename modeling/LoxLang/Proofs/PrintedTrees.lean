import Mathlib
import LoxLang.Syntax.Diagram

/-!
Printed trees as texts. A tree is an atom, or a head with parts behind it. As long as heads and atoms are words, or atoms
between quotation marks, splitting the texts of trees joined by blanks gives these texts back.
-/

namespace LoxLang.Diagram

open Text (isBlank trimBy)

/-- A tree as it is printed. -/
inductive Tree where
  | atom (text : List Char)
  | node (head : List Char) (parts : List Tree)

namespace Tree

mutual

def text : Tree → List Char
  | atom text => text
  | node head parts => '(' :: (head ++ (texts parts).flatMap (' ' :: ·) ++ [')'])

def texts : List Tree → List (List Char)
  | [] => []
  | t :: rest => t.text :: texts rest

end

end Tree

/-- A character that is neither blank nor a mark between parts. -/
def isPlain (c : Char) : Bool := !isBlank c && c ∉ ['(', ')', quotationMark]

/-- A word: a head, or an atom that is no string. -/
structure IsWord (text : List Char) : Prop where
  filled : text ≠ []
  plain : ∀ c ∈ text, isPlain c = true

/-- A word, or a text between quotation marks. -/
inductive IsAtom : List Char → Prop where
  | word {text : List Char} (isWord : IsWord text) : IsAtom text
  | quoted {body : List Char} (inside : quotationMark ∉ body) : IsAtom (quotationMark :: (body ++ [quotationMark]))

namespace Tree

mutual

/-- Heads are words, and atoms are words or strings. -/
def Formed : Tree → Prop
  | atom text => IsAtom text
  | node head parts => IsWord head ∧ AllFormed parts

def AllFormed : List Tree → Prop
  | [] => True
  | t :: rest => t.Formed ∧ AllFormed rest

end

end Tree

/-! ### Blanks at the ends -/

theorem IsWord.of {text : List Char} (check : (!text.isEmpty && text.all isPlain) = true) : IsWord text := by
  rw [Bool.and_eq_true, List.all_eq_true] at check
  exact ⟨by rintro rfl; exact absurd check.1 (by simp), check.2⟩

theorem isPlain_iff {c : Char} : isPlain c = true ↔ isBlank c = false ∧ c ≠ '(' ∧ c ≠ ')' ∧ c ≠ quotationMark := by
  simp [isPlain]

theorem isBlank_space : isBlank ' ' = true := rfl

/-- The text begins and ends with characters that are not blank. -/
def Tight (text : List Char) : Prop :=
  (∀ c ∈ text.head?, isBlank c = false) ∧ ∀ c ∈ text.getLast?, isBlank c = false

theorem Tight.trim {text : List Char} (tight : Tight text) : trim text = text := by
  have stays {list : List Char} (first : ∀ c ∈ list.head?, isBlank c = false) : list.dropWhile isBlank = list := by
    cases list with
    | nil => rfl
    | cons c => simp [first c rfl]
  rw [Diagram.trim, trimBy, stays tight.1, stays (by simpa using tight.2), List.reverse_reverse]

theorem Tight.ofEnds {c d : Char} (text : List Char) (first : isBlank c = false) (last : isBlank d = false) :
    Tight (c :: (text ++ [d])) :=
  ⟨by rintro _ ⟨⟩; exact first, fun e atEnd => by
    have same : d = e := by simpa [List.getLast?_cons] using atEnd
    exact same ▸ last⟩

theorem IsWord.tight {text : List Char} (isWord : IsWord text) : Tight text :=
  ⟨fun c first => (isPlain_iff.mp (isWord.plain c (List.mem_of_mem_head? first))).1,
    fun c last => (isPlain_iff.mp (isWord.plain c (List.mem_of_mem_getLast? last))).1⟩

theorem Tree.Formed.tight {t : Tree} (formed : t.Formed) : Tight t.text := by
  cases t with
  | atom =>
    cases formed with
    | word isWord => exact isWord.tight
    | @quoted body inside => exact .ofEnds body rfl rfl
  | node head parts => exact .ofEnds (head ++ (Tree.texts parts).flatMap (' ' :: ·)) rfl rfl

theorem Tree.Formed.filled {t : Tree} (formed : t.Formed) : t.text ≠ [] := by
  cases t with
  | atom text =>
    cases formed with
    | word isWord => exact isWord.filled
    | quoted => simp [Tree.text]
  | node => simp [Tree.text]

/-! ### Splitting -/

namespace Splitting

variable {s : Splitting} {text body : List Char}

def pushAll (s : Splitting) (text : List Char) : Splitting := { s with current := text.reverse ++ s.current }

theorem pushAll_append (s : Splitting) (text more : List Char) : (s.pushAll text).pushAll more = s.pushAll (text ++ more) := by
  simp [pushAll]

theorem pushAll_cons (s : Splitting) (c : Char) (text : List Char) : (s.push c).pushAll text = s.pushAll (c :: text) := by
  simp [pushAll, push]

theorem foldl_step_of_push (each : ∀ c ∈ text, ∀ s : Splitting, s.inString = inside → s.step c = s.push c)
    (same : s.inString = inside) : text.foldl step s = s.pushAll text := by
  induction text generalizing s with
  | nil => rfl
  | cons c _ ih =>
    have others := ih (s := s.push c) (fun d member => each d (by simp [member])) same
    rw [List.foldl_cons, each c (by simp) s same, others, pushAll_cons]

theorem foldl_word (plain : ∀ c ∈ text, isPlain c = true) (s : Splitting) : text.foldl step s = s.pushAll text := by
  refine foldl_step_of_push (fun c member s _ => ?_) rfl
  obtain ⟨noBlank, noLeft, noRight, noMark⟩ := isPlain_iff.mp (plain c member)
  have noSpace : c ≠ ' ' := by
    rintro rfl
    cases noBlank
  simp [step, noLeft, noRight, noMark, noSpace]

theorem foldl_inString (inside : quotationMark ∉ body) (inString : s.inString = true) :
    body.foldl step s = s.pushAll body := by
  refine foldl_step_of_push (fun c member s inString => ?_) inString
  have noMark : c ≠ quotationMark := fun same => inside (same ▸ member)
  simp [step, noMark, inString]

theorem foldl_quoted (inside : quotationMark ∉ body) (outside : s.inString = false) :
    (quotationMark :: (body ++ [quotationMark])).foldl step s =
      if s.depth = 0 then (s.pushAll (quotationMark :: (body ++ [quotationMark]))).close
      else s.pushAll (quotationMark :: (body ++ [quotationMark])) := by
  have opened : s.step quotationMark = { s.push quotationMark with inString := true } := by
    simp [step, outside, push, quotationMark]
  rw [List.foldl_cons, opened, List.foldl_append, foldl_inString inside rfl]
  by_cases top : s.depth = 0 <;> simp [step, top, outside, push, pushAll, quotationMark, close]

mutual

/-- Between parentheses a tree is added to the part at hand, by induction on the tree. -/
theorem foldl_tree : ∀ (t : Tree) {s : Splitting}, t.Formed → 0 < s.depth → s.inString = false →
    t.text.foldl step s = s.pushAll t.text
  | .atom text, s, formed, inner, outside => by
    cases formed with
    | word isWord => exact foldl_word isWord.plain s
    | quoted inside => exact (foldl_quoted inside outside).trans (if_neg (by omega))
  | .node head parts, s, formed, inner, outside => by
    have opened : s.step '(' = { s.push '(' with depth := s.depth + 1 } := by
      simp [step, outside, (show s.depth ≠ 0 by omega)]
    have body := foldl_trees parts (s := ({ s.push '(' with depth := s.depth + 1 } : Splitting).pushAll head) formed.2
      (show 0 < s.depth + 1 by omega) outside
    rw [Tree.text, List.foldl_cons, opened, List.foldl_append, List.foldl_append, foldl_word formed.1.plain, body]
    simp [step, outside, push, pushAll, (show s.depth ≠ 0 by omega)]
termination_by structural t => t

theorem foldl_trees : ∀ (parts : List Tree) {s : Splitting}, Tree.AllFormed parts → 0 < s.depth → s.inString = false →
    ((Tree.texts parts).flatMap (' ' :: ·)).foldl step s = s.pushAll ((Tree.texts parts).flatMap (' ' :: ·))
  | [], _, _, _, _ => rfl
  | t :: rest, s, formed, inner, outside => by
    have blank : s.step ' ' = s.push ' ' := by simp [step, (show s.depth ≠ 0 by omega), quotationMark]
    have first := foldl_tree t (s := s.push ' ') formed.1 inner outside
    have others := foldl_trees rest (s := (s.push ' ').pushAll t.text) formed.2 inner outside
    rw [Tree.texts, List.flatMap_cons, List.foldl_append, List.foldl_cons, blank, first, others, pushAll_append,
      pushAll_cons]
    rfl
termination_by structural parts => parts

end

/-- Between two parts. -/
def ready (parts : List (List Char)) : Splitting := ⟨parts, [], 0, false⟩

/-- At the end of a part it is complete, or will be when a blank or the end follows. -/
theorem closeTrimmed_tree {t : Tree} (formed : t.Formed) (parts : List (List Char)) :
    let s := t.text.foldl step (ready parts)
    s.depth = 0 ∧ s.inString = false ∧ s.closeTrimmed = ready (t.text :: parts) := by
  have tight := formed.tight.trim
  cases t with
  | atom text =>
    cases formed with
    | word isWord =>
      rw [Tree.text, foldl_word isWord.plain]
      refine ⟨rfl, rfl, ?_⟩
      rw [Tree.text] at tight
      simp [closeTrimmed, pushAll, ready, tight, isWord.filled]
    | quoted inside =>
      rw [Tree.text, foldl_quoted inside rfl]
      simp [ready, close, pushAll, closeTrimmed, Diagram.trim, trimBy]
  | node head children =>
    have opened : (ready parts).step '(' = ⟨parts, ['('], 1, false⟩ := by
      simp [step, ready, push, Diagram.trim, trimBy]
    have body := foldl_trees children (s := (⟨parts, ['('], 1, false⟩ : Splitting).pushAll head) formed.2
      (show (0 : Int) < 1 by omega) rfl
    have whole : (Tree.node head children).text.foldl step (ready parts) = ready ((Tree.node head children).text :: parts) := by
      rw [Tree.text, List.foldl_cons, opened, List.foldl_append, List.foldl_append, foldl_word formed.1.plain, body]
      rw [Tree.text] at tight
      simpa [step, push, pushAll, ready] using tight
    rw [whole]
    simp [ready, closeTrimmed, Diagram.trim, trimBy]

theorem foldl_joined : ∀ (t : Tree) (rest : List Tree) (parts : List (List Char)), t.Formed → Tree.AllFormed rest →
    ((t.text ++ (Tree.texts rest).flatMap (' ' :: ·)).foldl step (ready parts)).closeTrimmed =
      ready ((Tree.texts (t :: rest)).reverse ++ parts)
  | t, [], parts, formed, _ => by
    simpa [Tree.texts] using (closeTrimmed_tree formed parts).2.2
  | t, next :: rest, parts, formed, others => by
    obtain ⟨depth, outside, closed⟩ := closeTrimmed_tree formed parts
    have blank : (t.text.foldl step (ready parts)).step ' ' = ready (t.text :: parts) := by
      rw [← closed]
      simp [step, depth, outside, quotationMark]
    have more := foldl_joined next rest (t.text :: parts) others.1 others.2
    rw [Tree.texts, List.flatMap_cons, List.foldl_append, List.cons_append, List.foldl_cons, blank, more]
    simp [Tree.texts]

end Splitting

theorem intercalate_cons (first : List Char) (rest : List (List Char)) :
    [' '].intercalate (first :: rest) = first ++ rest.flatMap (' ' :: ·) := by
  induction rest generalizing first with
  | nil => simp [List.intercalate]
  | cons next rest ih => simpa [List.intercalate] using ih next

theorem split_texts {parts : List Tree} (formed : Tree.AllFormed parts) :
    split ([' '].intercalate (Tree.texts parts)) = Tree.texts parts := by
  cases parts with
  | nil => rfl
  | cons t rest =>
    have joined := Splitting.foldl_joined t rest [] formed.1 formed.2
    rw [Tree.texts, intercalate_cons, split, show Splitting.start = Splitting.ready [] from rfl, joined]
    simp [Splitting.ready, Tree.texts]

theorem toList_parenthesized (head : String) (parts : List String) :
    (parenthesized head parts).toList =
      '(' :: (head.toList ++ (parts.map String.toList).flatMap (' ' :: ·) ++ [')']) := by
  simp [parenthesized, String.toList_intercalate, ← intercalate_cons]

/-! ### Reading a text as a tree -/

/-- The tree that a text is read as when it is drawn, if it is not blank. -/
def readTree : Nat → List Char → Option Tree
  | 0, _ => none
  | n + 1, text =>
    match trim text with
    | [] => none
    | '(' :: inner =>
      let (head, rest) := splitHead (trim inner.dropLast)
      some (.node head ((split rest).filterMap (readTree n)))
    | word => some (.atom word)

theorem splitHead_word {head : List Char} (isWord : IsWord head) (texts : List (List Char)) :
    splitHead (head ++ texts.flatMap (' ' :: ·)) = (head, [' '].intercalate texts) := by
  have noSpace : ∀ c ∈ head, (!decide (c = ' ')) = true := by
    intro c member
    have plain := (isPlain_iff.mp (isWord.plain c member)).1
    simpa using fun same => by simp [same, isBlank_space] at plain
  have unquoted : isQuoted (head ++ texts.flatMap (' ' :: ·)) = false := by
    obtain ⟨c, more, rfl⟩ := List.exists_cons_of_ne_nil isWord.filled
    have noMark := (isPlain_iff.mp (isWord.plain c (by simp))).2.2.2
    simp [isQuoted, noMark]
  have before : (head ++ texts.flatMap (' ' :: ·)).takeWhile (· ≠ ' ') = head := by
    cases texts <;> simp [List.takeWhile_append, List.takeWhile_eq_self_iff.mpr noSpace]
  have behind : ((head ++ texts.flatMap (' ' :: ·)).dropWhile (· ≠ ' ')).drop 1 = [' '].intercalate texts := by
    cases texts with
    | nil => simp [List.dropWhile_eq_nil_iff.mpr noSpace, List.intercalate]
    | cons => simp [List.dropWhile_append, List.dropWhile_eq_nil_iff.mpr noSpace, intercalate_cons]
  rw [splitHead, unquoted, before, behind]
  rfl

theorem Tree.AllFormed.last {parts : List Tree} (formed : Tree.AllFormed parts) :
    ∀ c ∈ ((Tree.texts parts).flatMap (' ' :: ·)).getLast?, isBlank c = false := by
  induction parts with
  | nil => simp [Tree.texts]
  | cons _ _ ih =>
    intro c last
    rw [Tree.texts, List.flatMap_cons, List.getLast?_append, Option.mem_def, Option.or_eq_some_iff] at last
    obtain later | ⟨-, own⟩ := last
    · exact ih formed.2 c later
    · exact formed.1.tight.2 c (by simpa [List.getLast?_cons, List.getLast?_eq_some_getLast formed.1.filled] using own)

theorem Tree.Formed.tight_inner {head : List Char} {parts : List Tree} (formed : (Tree.node head parts).Formed) :
    Tight (head ++ (Tree.texts parts).flatMap (' ' :: ·)) := by
  refine ⟨fun c first => formed.1.tight.1 c ?_, fun c last => ?_⟩
  · simpa [List.head?_append, List.head?_eq_some_head formed.1.filled] using first
  · rw [List.getLast?_append, Option.mem_def, Option.or_eq_some_iff] at last
    obtain later | ⟨-, own⟩ := last
    · exact formed.2.last c later
    · exact formed.1.tight.2 c own

theorem IsAtom.head {c : Char} {rest : List Char} (isAtom : IsAtom (c :: rest)) : c ≠ '(' := by
  cases isAtom with
  | word isWord => exact (isPlain_iff.mp (isWord.plain c (by simp))).2.1
  | quoted => decide

theorem length_of_mem_texts {parts : List Tree} {text : List Char} (member : text ∈ Tree.texts parts) :
    text.length < ((Tree.texts parts).flatMap (' ' :: ·)).length := by
  obtain ⟨before, behind, split⟩ := List.append_of_mem member
  simp [split]
  omega

mutual

/-- The text of a tree is read as that tree. -/
theorem readTree_text : ∀ (t : Tree), t.Formed → ∀ n, t.text.length ≤ n → readTree n t.text = some t
  | .atom text, formed, n, enough => by
    obtain ⟨c, rest, rfl⟩ := List.exists_cons_of_ne_nil formed.filled
    obtain ⟨n, rfl⟩ : ∃ m, n = m + 1 := Nat.exists_eq_add_one.mpr (by simp [Tree.text] at enough; omega)
    have tight := formed.tight.trim
    have noParenthesis := IsAtom.head formed
    rw [Tree.text] at tight ⊢
    simp only [readTree, tight]
    split <;> simp_all
  | .node head parts, formed, n, enough => by
    obtain ⟨n, rfl⟩ : ∃ m, n = m + 1 := Nat.exists_eq_add_one.mpr (by simp [Tree.text] at enough; omega)
    have tight := formed.tight.trim
    have enough : ∀ text ∈ Tree.texts parts, text.length ≤ n := by
      intro text member
      have shorter := length_of_mem_texts member
      simp only [Tree.text, List.length_cons, List.length_append] at enough
      omega
    rw [Tree.text] at tight ⊢
    simp only [readTree, tight, List.dropLast_concat, formed.tight_inner.trim, splitHead_word formed.1, split_texts formed.2,
      readTree_texts parts formed.2 n enough]
termination_by structural t => t

theorem readTree_texts : ∀ (parts : List Tree), Tree.AllFormed parts → ∀ n, (∀ text ∈ Tree.texts parts, text.length ≤ n) →
    (Tree.texts parts).filterMap (readTree n) = parts
  | [], _, _, _ => rfl
  | t :: rest, formed, n, enough => by
    rw [Tree.texts, List.filterMap_cons, readTree_text t formed.1 n (enough _ (by simp [Tree.texts])),
      readTree_texts rest formed.2 n fun text member => enough text (by simp [Tree.texts, member])]
termination_by structural parts => parts

end

theorem tree_eq_of_text_eq {t u : Tree} (formed : t.Formed) (formed' : u.Formed) (same : t.text = u.text) : t = u := by
  have read := readTree_text t formed _ (Nat.le_refl _)
  rw [same, readTree_text u formed' _ (Nat.le_refl _)] at read
  exact (Option.some.inj read).symm

end LoxLang.Diagram
