import LoxLang.Report
import LoxLang.Number.Reading
import LoxLang.Text.Alphanumeric
import LoxLang.Text.Quoted

/-!
# Segments of the source

A source is read from left to right and cut into segments: tokens, blanks, comments, and pieces that are reported.
Nothing is left out between two segments. Two things end the reading early: a numeral whose digits have no decimal
value, and a nested comment mark with nothing behind it.
-/

namespace LoxLang

open Text (isDigit isAlphanumeric quoted)

/-- A position in the source: the line, from 1 on, and the number of characters read on it. -/
structure Cursor where
  line : Nat
  column : Nat
  deriving Repr, DecidableEq, Inhabited

namespace Cursor

/-- Before the first character. -/
def start : Cursor := ⟨1, 0⟩

/-- Some characters further on the same line. -/
def forward (pos : Cursor) (count : Nat) : Cursor := ⟨pos.line, pos.column + count⟩

/-- Before the first character of the next line. -/
def nextLine (pos : Cursor) : Cursor := ⟨pos.line + 1, 0⟩

/-- After a character of a string or a block comment. There the end of a line counts as the first character of the
next one. -/
def within (pos : Cursor) (c : Char) : Cursor :=
  if c = '\n' then pos.nextLine.forward 1 else pos.forward 1

/-- After a text inside a string or a block comment. -/
def withinAll (pos : Cursor) (text : List Char) : Cursor := text.foldl within pos

end Cursor

/-- What is reported about a piece of the source. -/
inductive ScanError where
  | stray (c : Char) (column : Nat)
  | openString
  | openComment
  deriving Repr, DecidableEq

def ScanError.message : ScanError → String
  | .stray c column =>
    "Token " ++ String.singleton c ++ " at position " ++ Number.integerText column ++ " not accepted"
  | .openString => "Unterminated string."
  | .openComment => "Unterminated block comment."

/-- What ends the reading of a source early. -/
inductive ScanFault where
  | unreadableNumeral (text : String)
  | nothingAfterMark
  deriving Repr, DecidableEq

def ScanFault.message : ScanFault → String
  | .unreadableNumeral text => "could not convert string to float: " ++ quoted text
  | .nothingAfterMark => "string index out of range"

/-- A piece of the source. -/
inductive Segment where
  | token (t : Token)
  | blank (c : Char)
  | lineComment (text : List Char)
  | blockComment (text : List Char)
  | rejected (text : List Char) (line : Nat) (error : ScanError)
  deriving Inhabited

namespace Segment

def text : Segment → List Char
  | token t => t.lexeme.toList
  | blank c => [c]
  | lineComment text => text
  | blockComment text => text
  | rejected text _ _ => text

def token? : Segment → Option Token
  | token t => some t
  | _ => none

def report? : Segment → Option Report
  | rejected _ line error => some ⟨.line line, error.message⟩
  | _ => none

end Segment

/-- One step of the reading: a segment with what follows it and the position after it, or a fault with the position
at which it was met. -/
inductive ScanStep where
  | segment (s : Segment) (rest : List Char) (after : Cursor)
  | fault (f : ScanFault) (pos : Cursor)

namespace ScanStep

/-- A token read up to the given position. -/
def token (kind : TokenKind) (lexeme : List Char) (literal : Literal) (rest : List Char) (after : Cursor) : ScanStep :=
  .segment (.token ⟨kind, String.ofList lexeme, literal, after.line⟩) rest after

end ScanStep

/-- How a block comment ends: at the mark that closes it, at the end of the source, or at a nested mark with nothing
behind it. -/
inductive CommentEnd where
  | closed (text rest : List Char) (after : Cursor)
  | unclosed (text : List Char) (after : Cursor)
  | nothingAfterMark (pos : Cursor)

/-- The end of a comment with more text before it. -/
def CommentEnd.prepend (before : List Char) : CommentEnd → CommentEnd
  | closed text rest after => closed (before ++ text) rest after
  | unclosed text after => unclosed (before ++ text) after
  | nothingAfterMark pos => nothingAfterMark pos

/-- Reads a block comment after its opening mark; `depth` comments are open inside it. Marks nest, and the character
behind a nested mark is skipped with it, whatever it is. -/
def readComment (depth : Nat) (pos : Cursor) : List Char → CommentEnd
  | [] => .unclosed [] pos
  | '/' :: '*' :: rest =>
    match rest with
    | [] => .nothingAfterMark (pos.forward 3)
    | c :: more => (readComment (depth + 1) ((pos.forward 2).within c) more).prepend ['/', '*', c]
  | '*' :: '/' :: rest =>
    match depth, rest with
    | 0, rest => .closed ['*', '/'] rest (pos.forward 2)
    | _ + 1, [] => .nothingAfterMark (pos.forward 3)
    | depth + 1, c :: more => (readComment depth ((pos.forward 2).within c) more).prepend ['*', '/', c]
  | c :: rest => (readComment depth (pos.within c) rest).prepend [c]

/-- Reads what begins with a slash: a line comment, a block comment or the slash itself. -/
def readSlash (pos : Cursor) (rest : List Char) : ScanStep :=
  match rest with
  | '/' :: more =>
    let text := more.takeWhile (· ≠ '\n')
    .segment (.lineComment ('/' :: '/' :: text)) (more.dropWhile (· ≠ '\n')) (pos.forward (2 + text.length))
  | '*' :: more =>
    match readComment 0 (pos.forward 2) more with
    | .closed text rest after => .segment (.blockComment ('/' :: '*' :: text)) rest after
    | .unclosed text after => .segment (.rejected ('/' :: '*' :: text) after.line .openComment) [] after
    | .nothingAfterMark pos => .fault .nothingAfterMark pos
  | _ => .token .slash ['/'] .nil rest (pos.forward 1)

/-- The mark at both ends of a string. -/
def stringMark : Char := '\x22'

/-- Reads a string after its first mark. -/
def readString (pos : Cursor) (rest : List Char) : ScanStep :=
  let body := rest.takeWhile (· ≠ stringMark)
  let after := (pos.forward 1).withinAll body
  match rest.dropWhile (· ≠ stringMark) with
  | [] => .segment (.rejected (stringMark :: body) after.line .openString) [] after
  | mark :: more =>
    .token .string (stringMark :: body ++ [mark]) (.string (String.ofList body)) more (after.forward 1)

/-- Splits a numeral from the text that it begins: digits, and a point only if a digit follows it. -/
def splitNumeral (text : List Char) : List Char × List Char :=
  let whole := text.takeWhile isDigit
  match text.dropWhile isDigit with
  | '.' :: c :: more =>
    if isDigit c then
      (whole ++ '.' :: (c :: more).takeWhile isDigit, (c :: more).dropWhile isDigit)
    else
      (whole, '.' :: c :: more)
  | rest => (whole, rest)

/-- Reads a numeral from its first digit on. -/
def readNumeral (pos : Cursor) (text : List Char) : ScanStep :=
  let (numeral, rest) := splitNumeral text
  let after := pos.forward numeral.length
  match Number.read? (String.ofList numeral) with
  | some value => .token .number numeral (.number value) rest after
  | none => .fault (.unreadableNumeral (String.ofList numeral)) after

/-- Reads a word from its first character on. -/
def readWord (pos : Cursor) (text : List Char) : ScanStep :=
  let word := text.takeWhile isAlphanumeric
  .token (.ofWord (String.ofList word)) word .nil (text.dropWhile isAlphanumeric) (pos.forward word.length)

/-- Reads the segment that begins with the character `c`. -/
def readSegment (pos : Cursor) (c : Char) (rest : List Char) : ScanStep :=
  match TokenKind.ofChar? c, TokenKind.ofCharWithEqual? c with
  | some kind, _ => .token kind [c] .nil rest (pos.forward 1)
  | none, some (alone, withEqual) =>
    match rest with
    | '=' :: more => .token withEqual [c, '='] .nil more (pos.forward 2)
    | _ => .token alone [c] .nil rest (pos.forward 1)
  | none, none =>
    if c = '/' then readSlash pos rest
    else if c = ' ' || c = '\r' || c = '\t' then .segment (.blank c) rest (pos.forward 1)
    else if c = '\n' then .segment (.blank c) rest pos.nextLine
    else if c = stringMark then readString pos rest
    else if isDigit c then readNumeral pos (c :: rest)
    else if isAlphanumeric c then readWord pos (c :: rest)
    else
      let after := pos.forward 1
      .segment (.rejected [c] after.line (.stray c after.column)) rest after

end LoxLang
