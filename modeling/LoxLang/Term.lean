import LoxLang.Value

/-!
# Small terms

Terms of literals, groups and operators, without names. They are printed with parentheses and compared by structure.
-/

namespace LoxLang

/-- Terms. A plain value or an unknown term can stand where a term should, but has no printed form. -/
inductive Term where
  | binary (left : Term) (operator : Literal) (right : Term)
  | unary (operator : Literal) (operand : Term)
  | literal (value : Literal)
  | group (inner : Term)
  | plain (value : Literal)
  | unknown

namespace Term

/-- The message about a term that has no printed form. -/
def unknownMessage : String := "Unknown expression"

/-- The printed form of a term. -/
def printed? : Term → Option String
  | binary left operator right => do
    let left ← left.printed?
    let right ← right.printed?
    return "(" ++ operator.text ++ " " ++ left ++ " " ++ right ++ ")"
  | unary operator operand => do
    let operand ← operand.printed?
    return "(" ++ operator.text ++ " " ++ operand ++ ")"
  | literal .nil => some "nil"
  | literal value => some value.text
  | group inner => do
    let inner ← inner.printed?
    return "(group " ++ inner ++ ")"
  | plain _ => none
  | unknown => none

/-- Equal values. -/
def sameValue (a b : Literal) : Bool := (Value.ofLiteral a).equals (.ofLiteral b)

/-- Equal terms: of the same shape, with equal values. An unknown term equals no other. -/
def same : Term → Term → Bool
  | binary l o r, binary l' o' r' => l.same l' && sameValue o o' && r.same r'
  | unary o t, unary o' t' => sameValue o o' && t.same t'
  | literal v, literal v' => sameValue v v'
  | group t, group t' => t.same t'
  | plain v, plain v' => sameValue v v'
  | _, _ => false

end Term
end LoxLang
