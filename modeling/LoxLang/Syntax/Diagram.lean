import LoxLang.Syntax.Printer
import LoxLang.Text.Blank
import LoxLang.Text.Digit

/-!
# Diagrams of printed trees

A printed tree is drawn as a diagram: one node for every head and every part without parentheses, and an edge from
each head to its parts. Nodes are numbered in the order in which they are drawn.
-/

namespace LoxLang.Diagram

open Text (isBlank isDigit trimBy)

/-- The text without blanks at its ends. -/
def trim (text : List Char) : List Char := trimBy isBlank text

/-- The quotation mark of strings in printed trees. -/
def quotationMark : Char := '\x22'

/-- A text that is being split into parts. -/
structure Splitting where
  /-- The parts that are complete, the last one first. -/
  parts : List (List Char)
  /-- The characters of the part at hand, the last one first. -/
  current : List Char
  /-- The number of open parentheses. -/
  depth : Int
  /-- Inside a string. -/
  inString : Bool

namespace Splitting

def start : Splitting := ⟨[], [], 0, false⟩

def push (s : Splitting) (c : Char) : Splitting := { s with current := c :: s.current }

/-- Completes the part at hand as it is. -/
def close (s : Splitting) : Splitting := { s with parts := s.current.reverse :: s.parts, current := [] }

/-- Completes the part at hand without the blanks around it, unless nothing else is in it. -/
def closeTrimmed (s : Splitting) : Splitting :=
  let part := trim s.current.reverse
  { s with parts := if part.isEmpty then s.parts else part :: s.parts, current := [] }

/-- Takes one more character. -/
def step (s : Splitting) (c : Char) : Splitting :=
  if c = '(' && !s.inString then
    let s :=
      if s.depth = 0 && !(trim s.current.reverse).isEmpty then s.closeTrimmed else s
    { s.push c with depth := s.depth + 1 }
  else if c = ')' && !s.inString then
    let s := { s.push c with depth := s.depth - 1 }
    if s.depth = 0 then { s with parts := trim s.current.reverse :: s.parts, current := [] } else s
  else if c = quotationMark then
    let s := { s.push c with inString := !s.inString }
    if !s.inString && s.depth = 0 then s.close else s
  else if c = ' ' && s.depth = 0 && !s.inString then s.closeTrimmed
  else s.push c

end Splitting

/-- The parts of a text: what stands between parentheses or quotation marks, and the words between. -/
def split (text : List Char) : List (List Char) :=
  (text.foldl Splitting.step .start).closeTrimmed.parts.reverse

/-- What is drawn: a node with its label, or an edge between two nodes. -/
inductive Mark where
  | node (id label : String)
  | edge (source target : String)
  deriving Repr, DecidableEq

/-- A diagram: the number of nodes drawn so far, the names of the heads that have been visited, and everything drawn,
in order. -/
structure Drawing where
  count : Nat
  visited : List String
  marks : List Mark
  deriving Repr

def nodeName (number : Nat) : String := "node" ++ Number.integerText number

/-- Begins and ends with a quotation mark. -/
def isQuoted (text : List Char) : Bool :=
  text.head? == some quotationMark && text.getLast? == some quotationMark

/-- Digits, with at most one point somewhere. -/
def isNumeral (text : List Char) : Bool :=
  let digits := text.erase '.'
  !digits.isEmpty && digits.all isDigit

/-- The label of a node says what kind of literal it shows. -/
def label (text : List Char) : String :=
  if isQuoted text then "String: " ++ String.ofList text
  else if isNumeral text then "Number: " ++ String.ofList text
  else String.ofList text

/-- Draws a node, and the edge to it if it has a parent. -/
def Drawing.add (d : Drawing) (parent : Option String) (text : List Char) : Drawing :=
  let name := nodeName (d.count + 1)
  let edge :=
    match parent with
    | none => []
    | some source => [Mark.edge source name]
  { d with count := d.count + 1, marks := d.marks ++ .node name (label text) :: edge }

/-- The head of a text between parentheses, and what follows it. A string is a head by itself. -/
def splitHead (content : List Char) : List Char × List Char :=
  if isQuoted content then (content, [])
  else (content.takeWhile (· ≠ ' '), (content.dropWhile (· ≠ ' ')).drop 1)

/-- No node is added to a diagram that has more nodes than this. -/
def maxNodes : Nat := 1000

/-- Draws a text under a parent. A head whose name has been visited before is not drawn, nor are its parts. The bound is
at least the length of the text, which a part of it never reaches. -/
def drawText : Nat → Option String → Drawing → List Char → Drawing
  | 0, _, d, _ => d
  | n + 1, parent, d, text =>
    if maxNodes < d.count then d
    else
      match trim text with
      | [] => d
      | '(' :: inner =>
        let (head, rest) := splitHead (trim inner.dropLast)
        let name := nodeName (d.count + 1)
        if name ∈ d.visited then { d with count := d.count + 1 }
        else (split rest).foldl (drawText n (some name)) ({ d with visited := name :: d.visited }.add parent head)
      | word => d.add parent word

/-- Draws a text under a parent, if there is one. -/
def draw (d : Drawing) (parent : Option String) (text : String) : Drawing :=
  drawText text.length parent d text.toList

/-- A diagram on which nothing is drawn and no head has been visited, its first node being the one after `count`. -/
def blank (count : Nat) : Drawing := ⟨count, [], []⟩

/-- The diagram on which nothing is drawn, after all that was drawn before. -/
def Drawing.cleared (d : Drawing) : Drawing := { d with marks := [] }

def imageName (number : Nat) : String := "ast_statement_" ++ Number.integerText number ++ ".png"

def imageDirectory : String := "ast"

/-- Where the image of a statement is saved. -/
def imagePath (number : Nat) : String := imageDirectory ++ "/" ++ imageName number

/-- The line that is printed when an image has been saved. -/
def savedLine (number : Nat) : String := "AST image saved to " ++ imagePath number

/-- The diagram of one statement of a program: the printed tree, what is drawn, and the images there are so far, sorted
by name. -/
structure Sheet where
  number : Nat
  printed : String
  drawing : Drawing
  images : List String

/-- The diagrams of the statements of a program, after a diagram. Nodes are numbered, and heads visited, through all of
them. -/
def drawProgram (number : Nat) (d : Drawing) : List Stmt → List Sheet
  | [] => []
  | s :: rest =>
    let drawing := draw d.cleared none s.printed
    let images := ((List.range (number + 1)).map imageName).mergeSort fun a b => a ≤ b
    ⟨number, s.printed, drawing, images⟩ :: drawProgram (number + 1) drawing rest

end LoxLang.Diagram
