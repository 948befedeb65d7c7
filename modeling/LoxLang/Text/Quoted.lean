import LoxLang.Text.Printable

/-!
# Quoted texts

How a message shows a text: between quotes, with what cannot be shown written as an escape.
-/

namespace LoxLang.Text

/-- A number in hexadecimal, filled with zeros to the given width. -/
def hexadecimal (width value : Nat) : String :=
  let digits := Nat.toDigits 16 value
  String.ofList (List.replicate (width - digits.length) '0' ++ digits)

/-- The escape of a character by its code point: two, four or eight hexadecimal digits. -/
def codeEscape (c : Char) : String :=
  if c.toNat < 0x100 then "\\x" ++ hexadecimal 2 c.toNat
  else if c.toNat < 0x10000 then "\\u" ++ hexadecimal 4 c.toNat
  else "\\U" ++ hexadecimal 8 c.toNat

/-- A character between quotes of the given kind. -/
def quotedChar (quote c : Char) : String :=
  if c = quote || c = '\\' then String.ofList ['\\', c]
  else if c = '\n' then "\\n"
  else if c = '\r' then "\\r"
  else if c = '\t' then "\\t"
  else if isPrintable c then String.singleton c
  else codeEscape c

/-- Single quotes, unless the text holds a single quote and no double quote. -/
def quoteFor (text : String) : Char :=
  if text.contains '\x27' && !text.contains '\x22' then '\x22' else '\x27'

/-- The text between quotes. -/
def quoted (text : String) : String :=
  let quote := quoteFor text
  let inner := text.toList.map (quotedChar quote)
  String.singleton quote ++ String.join inner ++ String.singleton quote

end LoxLang.Text
