import LoxLang.Number.Text
import LoxLang.Text.Quoted

/-!
# UTF-8

Decoding bytes to characters, and what is said about bytes that are no characters: which bytes are at fault, and why.
-/

namespace LoxLang.Text

/-- Why bytes cannot be decoded. -/
inductive Utf8Reason where
  | startByte
  | continuationByte
  | endOfData
  deriving Repr, DecidableEq

def Utf8Reason.text : Utf8Reason → String
  | startByte => "invalid start byte"
  | continuationByte => "invalid continuation byte"
  | endOfData => "unexpected end of data"

/-- The bytes at fault: the position of the first, the first itself, how many there are, and why. -/
structure Utf8Error where
  position : Nat
  first : UInt8
  count : Nat
  reason : Utf8Reason
  deriving Repr, DecidableEq

def Utf8Error.message (e : Utf8Error) : String :=
  let place :=
    if e.count = 1 then
      "byte 0x" ++ hexadecimal 2 e.first.toNat ++ " in position " ++ Number.integerText e.position
    else
      "bytes in position " ++ Number.integerText e.position ++ "-" ++
        Number.integerText (e.position + e.count - 1 : Nat)
  "'utf-8' codec can't decode " ++ place ++ ": " ++ e.reason.text

/-- The shape of a character by its first byte: the least and the greatest second byte, and how many bytes follow it. -/
structure Utf8Shape where
  low : Nat
  high : Nat
  more : Nat

/-- The shape of a character of more than one byte. Second bytes are limited so that no character has two encodings and
none is a surrogate or too large. -/
def utf8Shape? (first : Nat) : Option Utf8Shape :=
  if first < 0xC2 then none
  else if first < 0xE0 then some ⟨0x80, 0xBF, 0⟩
  else if first = 0xE0 then some ⟨0xA0, 0xBF, 1⟩
  else if first = 0xED then some ⟨0x80, 0x9F, 1⟩
  else if first < 0xF0 then some ⟨0x80, 0xBF, 1⟩
  else if first = 0xF0 then some ⟨0x90, 0xBF, 2⟩
  else if first < 0xF4 then some ⟨0x80, 0xBF, 2⟩
  else if first = 0xF4 then some ⟨0x80, 0x8F, 2⟩
  else none

/-- Takes the bytes that follow the first byte: their bits after those so far, how many bytes were taken, and the rest;
or how many bytes are at fault, and why. -/
def takeContinuation (low high : Nat) (value taken : Nat) :
    Nat → List UInt8 → Except (Nat × Utf8Reason) (Nat × Nat × List UInt8)
  | _, [] => .error (taken, .endOfData)
  | more, b :: rest =>
    if low ≤ b.toNat && b.toNat ≤ high then
      let value := value * 64 + (b.toNat - 0x80)
      match more with
      | 0 => .ok (value, taken + 1, rest)
      | more + 1 => takeContinuation 0x80 0xBF value (taken + 1) more rest
    else .error (taken, .continuationByte)

/-- The bits of the first byte of a character of more than one byte that belong to its code point. -/
def leadingBits (first more : Nat) : Nat := first % Nat.pow 2 (5 - more)

/-- Decodes bytes; `count` bounds their number, and `position` is where they begin. -/
def decodeFrom : Nat → Nat → List UInt8 → Except Utf8Error (List Char)
  | _, _, [] => .ok []
  | 0, _, _ => .ok []
  | n + 1, position, first :: rest =>
    if first.toNat < 0x80 then do
      return Char.ofNat first.toNat :: (← decodeFrom n (position + 1) rest)
    else
      match utf8Shape? first.toNat with
      | none => .error ⟨position, first, 1, .startByte⟩
      | some shape =>
        match takeContinuation shape.low shape.high (leadingBits first.toNat shape.more) 1 shape.more rest with
        | .error (count, reason) => .error ⟨position, first, count, reason⟩
        | .ok (value, taken, rest) => do
          return Char.ofNat value :: (← decodeFrom n (position + taken) rest)

def decodeUtf8 (bytes : List UInt8) : Except Utf8Error (List Char) := decodeFrom bytes.length 0 bytes

/-- Lines can end with a carriage return, a line feed or both; each becomes one line feed. -/
def unifyNewlines : List Char → List Char
  | '\r' :: '\n' :: rest => '\n' :: unifyNewlines rest
  | '\r' :: rest => '\n' :: unifyNewlines rest
  | c :: rest => c :: unifyNewlines rest
  | [] => []

end LoxLang.Text
