import LoxLang.Machine

/-!
# The texts of values

What `print` shows. A number without a fraction is shown as an integer; nil has no text of its own, but is shown
inside an array.
-/

namespace LoxLang

/-- A number as it is printed. -/
def displayNumber (x : Float) : String :=
  if Number.isIntegral x then Number.integerText ((Number.truncate? x).getD 0) else Number.text x

namespace Machine

/-- The text of a value inside an array, or of a value other than nil. The bound is on the depth of arrays inside
arrays. -/
def display (m : Machine) : Nat → Value → Except Ending String
  | _, .nil => .ok "nil"
  | _, .bool true => .ok "True"
  | _, .bool false => .ok "False"
  | _, .number x => .ok (displayNumber x)
  | _, .string s => .ok s
  | 0, .array _ => .error .outOfFuel
  | n + 1, .array id => do
    let texts ← (m.elements id).toList.mapM (display m n)
    return "[" ++ ", ".intercalate texts ++ "]"
  | _, .object o =>
    match o.madeBy with
    | some c => .ok (c.name ++ " instance")
    | none => .error (.crashed .noClass)
  | _, .classObject c => .ok c.name
  | _, .function f => .ok ("<fn " ++ f.decl.name.lexeme ++ ">")
  | _, .trait t => .ok ("<trait " ++ t.name.text ++ ">")
  | _, .builtin b => .ok b.text
  | _, .arrayFunction .. => .ok "<native fn>"

/-- Arrays that hold no array inside themselves are not nested more deeply than this. -/
def displayBound (m : Machine) : Nat := m.arrays.size

end Machine

/-- The token of an error about nil. -/
def nilToken : Token := ⟨.kwNil, "nil", .nil, 0⟩

/-- The text that `print` shows for a value. -/
def Eval.text (value : Value) : Eval String := do
  match value with
  | .nil => fail nilToken .nilHasNoText
  | value =>
    let m ← get
    ofExcept (m.display m.displayBound value)

end LoxLang
