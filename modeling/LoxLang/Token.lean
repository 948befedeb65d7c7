import LoxLang.Number.Text

/-!
# Tokens

The words of the language. A token has a kind, the text it was written with, the value it stands for if it is a
literal, and the line on which its text ends.
-/

namespace LoxLang

/-- The values that a literal of the source can denote. -/
inductive Literal where
  | nil
  | bool (value : Bool)
  | number (value : Float)
  | string (value : String)
  deriving Inhabited

/-- The text of a literal in messages and printed trees. -/
def Literal.text : Literal → String
  | .nil => "None"
  | .bool true => "True"
  | .bool false => "False"
  | .number value => Number.text value
  | .string value => value

/-- The kinds of tokens. -/
inductive TokenKind where
  | leftParen | rightParen | leftBrace | rightBrace
  | comma | dot | minus | plus | semicolon | slash | star | question | colon | modulo
  | bang | bangEqual | equal | equalEqual | greater | greaterEqual | less | lessEqual
  | identifier | string | number
  | kwAnd | kwClass | kwElse | kwFalse | kwFun | kwFor | kwIf | kwNil | kwOr | kwPrint
  | kwReturn | kwSuper | kwThis | kwTrue | kwVar | kwWhile | kwFunction | kwBreak | kwTrait | kwWith
  | endOfFile
  deriving Repr, DecidableEq, Inhabited

namespace TokenKind

/-- The name of a kind in messages. -/
def name : TokenKind → String
  | leftParen => "LEFT_PAREN"
  | rightParen => "RIGHT_PAREN"
  | leftBrace => "LEFT_BRACE"
  | rightBrace => "RIGHT_BRACE"
  | comma => "COMMA"
  | dot => "DOT"
  | minus => "MINUS"
  | plus => "PLUS"
  | semicolon => "SEMICOLON"
  | slash => "SLASH"
  | star => "STAR"
  | question => "QUESTION"
  | colon => "COLON"
  | modulo => "MODULO"
  | bang => "BANG"
  | bangEqual => "BANG_EQUAL"
  | equal => "EQUAL"
  | equalEqual => "EQUAL_EQUAL"
  | greater => "GREATER"
  | greaterEqual => "GREATER_EQUAL"
  | less => "LESS"
  | lessEqual => "LESS_EQUAL"
  | identifier => "IDENTIFIER"
  | string => "STRING"
  | number => "NUMBER"
  | kwAnd => "AND"
  | kwClass => "CLASS"
  | kwElse => "ELSE"
  | kwFalse => "FALSE"
  | kwFun => "FUN"
  | kwFor => "FOR"
  | kwIf => "IF"
  | kwNil => "NIL"
  | kwOr => "OR"
  | kwPrint => "PRINT"
  | kwReturn => "RETURN"
  | kwSuper => "SUPER"
  | kwThis => "THIS"
  | kwTrue => "TRUE"
  | kwVar => "VAR"
  | kwWhile => "WHILE"
  | kwFunction => "FUNCTION"
  | kwBreak => "BREAK"
  | kwTrait => "TRAIT"
  | kwWith => "WITH"
  | endOfFile => "EOF"

def all : List TokenKind :=
  [leftParen, rightParen, leftBrace, rightBrace, comma, dot, minus, plus, semicolon, slash, star, question, colon,
   modulo, bang, bangEqual, equal, equalEqual, greater, greaterEqual, less, lessEqual, identifier, string, number,
   kwAnd, kwClass, kwElse, kwFalse, kwFun, kwFor, kwIf, kwNil, kwOr, kwPrint, kwReturn, kwSuper, kwThis, kwTrue, kwVar,
   kwWhile, kwFunction, kwBreak, kwTrait, kwWith, endOfFile]

def ofName? (name : String) : Option TokenKind := all.find? (·.name = name)

/-- The reserved words with their kinds. -/
def keywords : List (String × TokenKind) :=
  [("and", kwAnd), ("class", kwClass), ("else", kwElse), ("false", kwFalse), ("fun", kwFun), ("for", kwFor),
   ("if", kwIf), ("nil", kwNil), ("or", kwOr), ("print", kwPrint), ("return", kwReturn), ("super", kwSuper),
   ("this", kwThis), ("true", kwTrue), ("var", kwVar), ("while", kwWhile), ("break", kwBreak), ("trait", kwTrait),
   ("with", kwWith)]

/-- The kind of a word: reserved or a name. -/
def ofWord (word : String) : TokenKind := (keywords.lookup word).getD identifier

/-- The kinds of the characters that are tokens by themselves. -/
def ofChar? : Char → Option TokenKind
  | '(' => some leftParen
  | ')' => some rightParen
  | '\x7b' => some leftBrace
  | '\x7d' => some rightBrace
  | ',' => some comma
  | '.' => some dot
  | '-' => some minus
  | '+' => some plus
  | ';' => some semicolon
  | '*' => some star
  | '%' => some modulo
  | '?' => some question
  | ':' => some colon
  | _ => none

/-- The kinds of the characters that an equals sign may follow: alone, and with it. -/
def ofCharWithEqual? : Char → Option (TokenKind × TokenKind)
  | '!' => some (bang, bangEqual)
  | '=' => some (equal, equalEqual)
  | '<' => some (less, lessEqual)
  | '>' => some (greater, greaterEqual)
  | _ => none

end TokenKind

/-- A token. -/
structure Token where
  kind : TokenKind
  lexeme : String
  literal : Literal
  line : Nat
  deriving Inhabited

/-- The text of a token in messages. -/
def Token.text (t : Token) : String :=
  "TokenType." ++ t.kind.name ++ " " ++ t.lexeme ++ " " ++ t.literal.text

end LoxLang
