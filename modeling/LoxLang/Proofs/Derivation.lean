import Mathlib
import LoxLang.Grammar.Statement

/-!
The grammar of the language as a relation between phrases and the tokens they are written with, stated without the
readers of `LoxLang.Grammar`. A statement is open when an `else` behind it would become a part of it; the branch before
an `else` must not be. The grammar is the same whether or not the number of arguments and parameters is limited, so
which numbers fit is a parameter.
-/

namespace LoxLang.Grammar

/-- The layers of expressions, from loosest to tightest. -/
inductive Layer where
  | conditional | assignment | disjunction | conjunction | equality | comparison | term | factor | unary | call | primary
  deriving Repr, DecidableEq

namespace Layer

def inner? : Layer → Option Layer
  | conditional => some assignment
  | assignment => some disjunction
  | disjunction => some conjunction
  | conjunction => some equality
  | equality => some comparison
  | comparison => some term
  | term => some factor
  | factor => some unary
  | unary => some call
  | call => some primary
  | primary => none

def operators : Layer → List TokenKind
  | disjunction => [.kwOr]
  | conjunction => [.kwAnd]
  | equality => [.bangEqual, .equalEqual]
  | comparison => [.greater, .greaterEqual, .less, .lessEqual]
  | term => [.minus, .plus]
  | factor => [.slash, .star, .modulo]
  | _ => []

/-- Two operands joined by an operator of a layer. -/
def join : Layer → Expr → Token → Expr → Expr
  | disjunction | conjunction => .logical
  | _ => .binary

end Layer

/-- The value of a token that is a literal by itself. -/
def literalOf? (t : Token) : Option Literal :=
  match t.kind with
  | .kwFalse => some (.bool false)
  | .kwTrue => some (.bool true)
  | .kwNil => some .nil
  | .number | .string => some t.literal
  | _ => none

inductive Phrase where
  | expression (layer : Layer) (e : Expr)
  | arguments (values : List Expr)
  | optional (e : Option Expr)
  /-- A variable from its name on. -/
  | definition (s : Stmt)
  /-- What comes before the condition of a `for` loop. -/
  | initializer (s : Option Stmt)
  | statement (s : Stmt) (isOpen : Bool)
  | declaration (s : Stmt)
  | declarations (body : List Stmt)
  /-- A function from its name on. -/
  | function (kind : FunctionKind) (f : FunDecl)
  /-- The body of a class; its own methods are marked. -/
  | members (members : List (Bool × FunDecl))
  | methods (methods : List FunDecl)

inductive Names : List Token → List Token → Prop where
  | one {name : Token} (isName : name.kind = .identifier) : Names [name] [name]
  | more {name comma : Token} {names ts : List Token} (isName : name.kind = .identifier)
      (isComma : comma.kind = .comma) (rest : Names names ts) : Names (name :: names) (name :: comma :: ts)

/-- The parameter list of a function; only a method can be without one. -/
inductive Parameters (fits : Nat → Prop) : FunctionKind → Option (List Token) → List Token → Prop where
  | getter : Parameters fits .method none []
  | empty {kind : FunctionKind} {left right : Token} (isLeft : left.kind = .leftParen)
      (isRight : right.kind = .rightParen) : Parameters fits kind (some []) [left, right]
  | list {kind : FunctionKind} {left right : Token} {names ts : List Token} (isLeft : left.kind = .leftParen)
      (isRight : right.kind = .rightParen) (params : Names names ts) (fit : fits names.length) :
      Parameters fits kind (some names) (left :: ts ++ [right])

inductive Extends : Option NameRef → List Token → Prop where
  | nothing : Extends none []
  | base {less name : Token} (isLess : less.kind = .less) (isName : name.kind = .identifier) :
      Extends (some ⟨name, none⟩) [less, name]

inductive Includes : List NameRef → List Token → Prop where
  | nothing : Includes [] []
  | traits {keyword : Token} {names ts : List Token} (isWith : keyword.kind = .kwWith) (list : Names names ts) :
      Includes (names.map fun name => ⟨name, none⟩) (keyword :: ts)

/-- The tokens are written for the phrase. -/
inductive Derives (fits : Nat → Prop) : Phrase → List Token → Prop where
  | inner {outer layer : Layer} {e : Expr} {ts : List Token} (next : outer.inner? = some layer)
      (part : Derives fits (.expression layer e) ts) : Derives fits (.expression outer e) ts
  | joined {layer operand : Layer} {left right : Expr} {op : Token} {ls rs : List Token}
      (next : layer.inner? = some operand) (isOp : op.kind ∈ layer.operators)
      (first : Derives fits (.expression layer left) ls) (second : Derives fits (.expression operand right) rs) :
      Derives fits (.expression layer (layer.join left op right)) (ls ++ op :: rs)
  | conditional {c t e : Expr} {mark colon : Token} {cs ts es : List Token} (isMark : mark.kind = .question)
      (isColon : colon.kind = .colon) (test : Derives fits (.expression .assignment c) cs)
      (yes : Derives fits (.expression .conditional t) ts) (no : Derives fits (.expression .conditional e) es) :
      Derives fits (.expression .conditional (.conditional c t e)) (cs ++ mark :: (ts ++ colon :: es))
  | assign {name equals : Token} {value : Expr} {vs : List Token} (isName : name.kind = .identifier)
      (isEquals : equals.kind = .equal) (source : Derives fits (.expression .assignment value) vs) :
      Derives fits (.expression .assignment (.assign name value none)) (name :: equals :: vs)
  | set {object value : Expr} {dot name equals : Token} {os vs : List Token} (isDot : dot.kind = .dot)
      (isName : name.kind = .identifier) (isEquals : equals.kind = .equal)
      (target : Derives fits (.expression .call object) os)
      (source : Derives fits (.expression .assignment value) vs) :
      Derives fits (.expression .assignment (.set object name value)) (os ++ dot :: name :: equals :: vs)
  | signed {op : Token} {operand : Expr} {ts : List Token} (isSign : op.kind ∈ [TokenKind.bang, .minus])
      (part : Derives fits (.expression .unary operand) ts) :
      Derives fits (.expression .unary (.unary op operand)) (op :: ts)
  | call {callee : Expr} {left paren : Token} {values : List Expr} {cs vs : List Token}
      (isLeft : left.kind = .leftParen) (isRight : paren.kind = .rightParen) (fit : fits values.length)
      (target : Derives fits (.expression .call callee) cs) (list : Derives fits (.arguments values) vs) :
      Derives fits (.expression .call (.call callee paren values)) (cs ++ left :: (vs ++ [paren]))
  | get {object : Expr} {dot name : Token} {os : List Token} (isDot : dot.kind = .dot)
      (isName : name.kind = .identifier) (target : Derives fits (.expression .call object) os) :
      Derives fits (.expression .call (.get object name)) (os ++ [dot, name])
  | literal {t : Token} {value : Literal} (isLiteral : literalOf? t = some value) :
      Derives fits (.expression .primary (.literal value)) [t]
  | name {name : Token} (isName : name.kind = .identifier) : Derives fits (.expression .primary (.var name none)) [name]
  | this {keyword : Token} (isThis : keyword.kind = .kwThis) :
      Derives fits (.expression .primary (.this keyword none)) [keyword]
  | super {keyword dot method : Token} (isSuper : keyword.kind = .kwSuper) (isDot : dot.kind = .dot)
      (isName : method.kind = .identifier) :
      Derives fits (.expression .primary (.super keyword method none)) [keyword, dot, method]
  | group {left right : Token} {e : Expr} {ts : List Token} (isLeft : left.kind = .leftParen)
      (isRight : right.kind = .rightParen) (part : Derives fits (.expression .conditional e) ts) :
      Derives fits (.expression .primary (.grouping e)) (left :: (ts ++ [right]))
  | noArguments : Derives fits (.arguments []) []
  | oneArgument {e : Expr} {ts : List Token} (part : Derives fits (.expression .conditional e) ts) :
      Derives fits (.arguments [e]) ts
  | moreArguments {e next : Expr} {rest : List Expr} {comma : Token} {ts us : List Token}
      (isComma : comma.kind = .comma) (part : Derives fits (.expression .conditional e) ts)
      (others : Derives fits (.arguments (next :: rest)) us) :
      Derives fits (.arguments (e :: next :: rest)) (ts ++ comma :: us)
  | absent : Derives fits (.optional none) []
  | present {e : Expr} {ts : List Token} (part : Derives fits (.expression .conditional e) ts) :
      Derives fits (.optional (some e)) ts
  | unset {name semicolon : Token} (isName : name.kind = .identifier) (isEnd : semicolon.kind = .semicolon) :
      Derives fits (.definition (.var name (some (.literal .nil)))) [name, semicolon]
  | valued {name equals semicolon : Token} {value : Expr} {vs : List Token} (isName : name.kind = .identifier)
      (isEquals : equals.kind = .equal) (isEnd : semicolon.kind = .semicolon)
      (part : Derives fits (.expression .conditional value) vs) :
      Derives fits (.definition (.var name (some value))) (name :: equals :: (vs ++ [semicolon]))
  | noInitializer {semicolon : Token} (isEnd : semicolon.kind = .semicolon) :
      Derives fits (.initializer none) [semicolon]
  | newVariable {keyword : Token} {s : Stmt} {ts : List Token} (isVar : keyword.kind = .kwVar)
      (part : Derives fits (.definition s) ts) : Derives fits (.initializer (some s)) (keyword :: ts)
  | firstValue {e : Expr} {semicolon : Token} {ts : List Token} (isEnd : semicolon.kind = .semicolon)
      (part : Derives fits (.expression .conditional e) ts) :
      Derives fits (.initializer (some (.expression e))) (ts ++ [semicolon])
  | evaluation {e : Expr} {semicolon : Token} {ts : List Token} (isEnd : semicolon.kind = .semicolon)
      (part : Derives fits (.expression .conditional e) ts) :
      Derives fits (.statement (.expression e) false) (ts ++ [semicolon])
  | print {keyword semicolon : Token} {e : Expr} {ts : List Token} (isPrint : keyword.kind = .kwPrint)
      (isEnd : semicolon.kind = .semicolon) (part : Derives fits (.expression .conditional e) ts) :
      Derives fits (.statement (.print e) false) (keyword :: (ts ++ [semicolon]))
  | returned {keyword semicolon : Token} {value : Option Expr} {ts : List Token} (isReturn : keyword.kind = .kwReturn)
      (isEnd : semicolon.kind = .semicolon) (part : Derives fits (.optional value) ts) :
      Derives fits (.statement (.returnValue keyword value) false) (keyword :: (ts ++ [semicolon]))
  | broken {keyword semicolon : Token} (isBreak : keyword.kind = .kwBreak) (isEnd : semicolon.kind = .semicolon) :
      Derives fits (.statement .breakLoop false) [keyword, semicolon]
  | block {left right : Token} {body : List Stmt} {ts : List Token} (isLeft : left.kind = .leftBrace)
      (isRight : right.kind = .rightBrace) (part : Derives fits (.declarations body) ts) :
      Derives fits (.statement (.block body) false) (left :: (ts ++ [right]))
  | ifThen {keyword left right : Token} {c : Expr} {t : Stmt} {isOpen : Bool} {cs ts : List Token}
      (isIf : keyword.kind = .kwIf) (isLeft : left.kind = .leftParen) (isRight : right.kind = .rightParen)
      (test : Derives fits (.expression .conditional c) cs) (yes : Derives fits (.statement t isOpen) ts) :
      Derives fits (.statement (.ifElse c t none) true) (keyword :: left :: (cs ++ right :: ts))
  | ifElse {keyword left right other : Token} {c : Expr} {t e : Stmt} {isOpen : Bool} {cs ts es : List Token}
      (isIf : keyword.kind = .kwIf) (isLeft : left.kind = .leftParen) (isRight : right.kind = .rightParen)
      (isElse : other.kind = .kwElse) (test : Derives fits (.expression .conditional c) cs)
      (yes : Derives fits (.statement t false) ts) (no : Derives fits (.statement e isOpen) es) :
      Derives fits (.statement (.ifElse c t (some e)) isOpen) (keyword :: left :: (cs ++ right :: (ts ++ other :: es)))
  | while {keyword left right : Token} {c : Expr} {s : Stmt} {isOpen : Bool} {cs ts : List Token}
      (isWhile : keyword.kind = .kwWhile) (isLeft : left.kind = .leftParen) (isRight : right.kind = .rightParen)
      (test : Derives fits (.expression .conditional c) cs) (body : Derives fits (.statement s isOpen) ts) :
      Derives fits (.statement (.whileLoop c s) isOpen) (keyword :: left :: (cs ++ right :: ts))
  | for {keyword left semicolon right : Token} {first : Option Stmt} {c increment : Option Expr} {s : Stmt}
      {isOpen : Bool} {fs cs is ts : List Token} (isFor : keyword.kind = .kwFor) (isLeft : left.kind = .leftParen)
      (isEnd : semicolon.kind = .semicolon) (isRight : right.kind = .rightParen)
      (start : Derives fits (.initializer first) fs) (test : Derives fits (.optional c) cs)
      (step : Derives fits (.optional increment) is) (body : Derives fits (.statement s isOpen) ts) :
      Derives fits (.statement (forLoop first c increment s) isOpen)
        (keyword :: left :: (fs ++ (cs ++ semicolon :: (is ++ right :: ts))))
  | classDef {keyword name left right : Token} {base : Option NameRef} {traits : List NameRef}
      {members : List (Bool × FunDecl)} {bs ws ms : List Token} (isClass : keyword.kind = .kwClass)
      (isName : name.kind = .identifier) (isLeft : left.kind = .leftBrace) (isRight : right.kind = .rightBrace)
      (extension : Extends base bs) (inclusion : Includes traits ws) (body : Derives fits (.members members) ms) :
      Derives fits (.declaration (.classDef
        { name, superclass := base, traits
          methods := (members.filter fun m => !m.1).map Prod.snd
          classMethods := (members.filter fun m => m.1).map Prod.snd }))
        (keyword :: name :: (bs ++ (ws ++ left :: (ms ++ [right]))))
  | traitDef {keyword name left right : Token} {traits : List NameRef} {methods : List FunDecl}
      {ws ms : List Token} (isTrait : keyword.kind = .kwTrait) (isName : name.kind = .identifier)
      (isLeft : left.kind = .leftBrace) (isRight : right.kind = .rightBrace) (inclusion : Includes traits ws)
      (body : Derives fits (.methods methods) ms) :
      Derives fits (.declaration (.traitDef { name, traits, methods }))
        (keyword :: name :: (ws ++ left :: (ms ++ [right])))
  | functionDef {keyword : Token} {f : FunDecl} {ts : List Token} (isFun : keyword.kind = .kwFun)
      (part : Derives fits (.function .function f) ts) : Derives fits (.declaration (.function f)) (keyword :: ts)
  | varDef {keyword : Token} {s : Stmt} {ts : List Token} (isVar : keyword.kind = .kwVar)
      (part : Derives fits (.definition s) ts) : Derives fits (.declaration s) (keyword :: ts)
  | plain {s : Stmt} {isOpen : Bool} {ts : List Token} (part : Derives fits (.statement s isOpen) ts) :
      Derives fits (.declaration s) ts
  | noDeclarations : Derives fits (.declarations []) []
  | moreDeclarations {s : Stmt} {rest : List Stmt} {ts us : List Token} (first : Derives fits (.declaration s) ts)
      (others : Derives fits (.declarations rest) us) : Derives fits (.declarations (s :: rest)) (ts ++ us)
  | function {kind : FunctionKind} {name left right : Token} {params : Option (List Token)} {body : List Stmt}
      {ps ts : List Token} (isName : name.kind = .identifier) (isLeft : left.kind = .leftBrace)
      (isRight : right.kind = .rightBrace) (list : Parameters fits kind params ps)
      (part : Derives fits (.declarations body) ts) :
      Derives fits (.function kind ⟨name, params, body⟩) (name :: (ps ++ left :: (ts ++ [right])))
  | noMembers : Derives fits (.members []) []
  | ownMember {keyword : Token} {f : FunDecl} {rest : List (Bool × FunDecl)} {ts us : List Token}
      (isClass : keyword.kind = .kwClass) (first : Derives fits (.function .method f) ts)
      (others : Derives fits (.members rest) us) : Derives fits (.members ((true, f) :: rest)) (keyword :: (ts ++ us))
  | member {f : FunDecl} {rest : List (Bool × FunDecl)} {ts us : List Token}
      (first : Derives fits (.function .method f) ts) (others : Derives fits (.members rest) us) :
      Derives fits (.members ((false, f) :: rest)) (ts ++ us)
  | noMethods : Derives fits (.methods []) []
  | method {f : FunDecl} {rest : List FunDecl} {ts us : List Token}
      (first : Derives fits (.function .method f) ts) (others : Derives fits (.methods rest) us) :
      Derives fits (.methods (f :: rest)) (ts ++ us)

/-! ### Tokens of a phrase -/

/-- Something holds of each of the tokens. -/
def Each (P : Token → Prop) (ts : List Token) : Prop := ∀ t ∈ ts, P t

namespace Each

variable {P : Token → Prop} {t : Token} {ts us : List Token}

theorem left (each : Each P (ts ++ us)) : Each P ts := fun t member => each t (List.mem_append_left us member)

theorem right (each : Each P (ts ++ us)) : Each P us := fun t member => each t (List.mem_append_right ts member)

theorem tail (each : Each P (t :: ts)) : Each P ts := fun u member => each u (List.mem_cons_of_mem t member)

theorem head (each : Each P (t :: ts)) : P t := each t List.mem_cons_self

end Each

end LoxLang.Grammar
