import LoxLang.Syntax

/-!
# Printed trees

A tree is printed as a head and its parts between parentheses, so `1 + 2;` is `(expr (+ 1.0 2.0))`.
-/

namespace LoxLang

/-- A head and parts between parentheses. -/
def parenthesized (head : String) (parts : List String) : String :=
  "(" ++ " ".intercalate (head :: parts) ++ ")"

/-- A literal in a printed tree: strings keep their quotes. -/
def Literal.printed : Literal → String
  | .nil => "nil"
  | .string value => "\"" ++ value ++ "\""
  | value => value.text

/-- The printed form of something that was left out. -/
def missingPrinted : String := "None"

mutual

/-- The printed form of an expression. -/
def Expr.printed : Expr → String
  | .binary left operator right => parenthesized operator.lexeme [left.printed, right.printed]
  | .logical left operator right => parenthesized operator.lexeme [left.printed, right.printed]
  | .unary operator operand => parenthesized operator.lexeme [operand.printed]
  | .conditional condition thenBranch elseBranch =>
    parenthesized "?:" [condition.printed, thenBranch.printed, elseBranch.printed]
  | .grouping inner => parenthesized "group" [inner.printed]
  | .literal value => value.printed
  | .var name _ => name.lexeme
  | .assign name value _ => parenthesized "=" [name.lexeme, value.printed]
  | .call callee _ arguments => parenthesized "call" (callee.printed :: Expr.printedAll arguments)
  | .get object name => parenthesized "." [object.printed, name.lexeme]
  | .set object name value => parenthesized "set" [object.printed, name.lexeme, value.printed]
  | .this _ _ => "this"
  | .super _ method _ => parenthesized "super" [method.lexeme]
  | .missing => missingPrinted

def Expr.printedAll : List Expr → List String
  | [] => []
  | e :: rest => e.printed :: Expr.printedAll rest

end

mutual

/-- The printed form of a statement. The traits of a class are not shown. -/
def Stmt.printed : Stmt → String
  | .expression value => parenthesized "expr" [value.printed]
  | .print value => parenthesized "print" [value.printed]
  | .var name none => parenthesized "var" [name.lexeme]
  | .var name (some value) => parenthesized "var" [name.lexeme, value.printed]
  | .block body => parenthesized "block" (Stmt.printedAll body)
  | .ifElse condition thenBranch none => parenthesized "if" [condition.printed, thenBranch.printed]
  | .ifElse condition thenBranch (some elseBranch) =>
    parenthesized "if" [condition.printed, thenBranch.printed, elseBranch.printed]
  | .whileLoop condition body => parenthesized "while" [condition.printed, body.printed]
  | .breakLoop => parenthesized "break" []
  | .returnValue _ none => parenthesized "return" []
  | .returnValue _ (some value) => parenthesized "return" [value.printed]
  | .function decl => decl.printed
  | .classDef decl => decl.printed
  | .traitDef decl => decl.printed
  | .missing => missingPrinted

def FunDecl.printed : FunDecl → String
  | ⟨name, _, body⟩ => parenthesized ("fun " ++ name.lexeme) (Stmt.printedAll body)

/-- The printed form of a class: the class it extends, its methods, and its own methods inside `(class …)`. -/
def ClassDecl.printed : ClassDecl → String
  | ⟨name, superclass, methods, classMethods, _⟩ =>
    let inherited :=
      match superclass with
      | none => []
      | some base => ["inherits_from", base.name.lexeme]
    parenthesized "class" (name.lexeme :: inherited ++ FunDecl.printedAll methods ++
      (FunDecl.printedAll classMethods).map fun method => parenthesized "class" [method])

/-- The printed form of a trait: the traits it includes and its methods. -/
def TraitDecl.printed : TraitDecl → String
  | ⟨name, traits, methods⟩ =>
    let included := if traits.isEmpty then [] else "with" :: traits.map (·.name.lexeme)
    parenthesized "trait" (name.lexeme :: included ++ FunDecl.printedAll methods)

def Stmt.printedAll : List Stmt → List String
  | [] => []
  | s :: rest => s.printed :: Stmt.printedAll rest

def FunDecl.printedAll : List FunDecl → List String
  | [] => []
  | f :: rest => f.printed :: FunDecl.printedAll rest

end

/-- What can stand behind a head: trees, lists of trees, the text of a token, or a value. -/
inductive Part where
  | expr (e : Expr)
  | stmt (s : Stmt)
  | token (t : Token)
  | value (v : Literal)
  | list (parts : List Part)

mutual

/-- The texts of a part. A list stands for all of its parts. -/
def Part.texts : Part → List String
  | .expr e => [e.printed]
  | .stmt s => [s.printed]
  | .token t => [t.lexeme]
  | .value v => [v.text]
  | .list parts => Part.textsAll parts

def Part.textsAll : List Part → List String
  | [] => []
  | part :: rest => part.texts ++ Part.textsAll rest

end

end LoxLang
