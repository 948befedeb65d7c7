import LoxLang.Proofs.Soundness

/-!
Programs on other lines. Changing the lines of the tokens of a source changes nothing but the lines in the program that
is read. In a program that has been read, the depths of the names can be changed in the same way.
-/

namespace LoxLang

/-- What replaces the lines of the tokens and the depths of the names in a program. -/
structure Relining where
  line : Nat → Nat
  depth : Nat → Option Nat

/-- Only the lines change. -/
def Relining.lines (g : Nat → Nat) : Relining := ⟨g, some⟩

/-- One change after another. -/
def Relining.comp (g h : Relining) : Relining := ⟨g.line ∘ h.line, fun depth => (h.depth depth).bind g.depth⟩

/-- The token on another line. -/
def Token.reline (g : Relining) (t : Token) : Token := { t with line := g.line t.line }

/-- Every line becomes the same. -/
def noLine : Relining := .lines fun _ => 0

section
variable (g : Relining)

@[simp]
theorem Token.kind_reline (t : Token) : (t.reline g).kind = t.kind := rfl

@[simp]
theorem Token.lexeme_reline (t : Token) : (t.reline g).lexeme = t.lexeme := rfl

mutual

/-- The expression on other lines. -/
def Expr.reline : Expr → Expr
  | .binary left op right => .binary left.reline (op.reline g) right.reline
  | .logical left op right => .logical left.reline (op.reline g) right.reline
  | .unary op operand => .unary (op.reline g) operand.reline
  | .conditional test yes no => .conditional test.reline yes.reline no.reline
  | .grouping inner => .grouping inner.reline
  | .literal value => .literal value
  | .var name depth => .var (name.reline g) (depth.bind g.depth)
  | .assign name value depth => .assign (name.reline g) value.reline (depth.bind g.depth)
  | .call callee paren arguments => .call callee.reline (paren.reline g) (Expr.relineAll arguments)
  | .get object name => .get object.reline (name.reline g)
  | .set object name value => .set object.reline (name.reline g) value.reline
  | .this keyword depth => .this (keyword.reline g) (depth.bind g.depth)
  | .super keyword method depth => .super (keyword.reline g) (method.reline g) (depth.bind g.depth)
  | .missing => .missing

def Expr.relineAll : List Expr → List Expr
  | [] => []
  | e :: rest => e.reline :: Expr.relineAll rest

end

def NameRef.reline (ref : NameRef) : NameRef := ⟨ref.name.reline g, ref.depth.bind g.depth⟩

mutual

def Stmt.reline : Stmt → Stmt
  | .expression value => .expression (value.reline g)
  | .print value => .print (value.reline g)
  | .var name initializer => .var (name.reline g) (initializer.map (Expr.reline g))
  | .block body => .block (Stmt.relineAll body)
  | .ifElse test yes none => .ifElse (test.reline g) yes.reline none
  | .ifElse test yes (some no) =>
    .ifElse (test.reline g) yes.reline (some no.reline)
  | .whileLoop test body => .whileLoop (test.reline g) body.reline
  | .breakLoop => .breakLoop
  | .returnValue keyword value => .returnValue (keyword.reline g) (value.map (Expr.reline g))
  | .function decl => .function decl.reline
  | .classDef ⟨name, superclass, methods, own, traits⟩ =>
    .classDef ⟨name.reline g, superclass.map (NameRef.reline g), FunDecl.relineAll methods,
      FunDecl.relineAll own, traits.map (NameRef.reline g)⟩
  | .traitDef ⟨name, traits, methods⟩ =>
    .traitDef ⟨name.reline g, traits.map (NameRef.reline g), FunDecl.relineAll methods⟩
  | .missing => .missing

def Stmt.relineAll : List Stmt → List Stmt
  | [] => []
  | s :: rest => s.reline :: Stmt.relineAll rest

def FunDecl.reline : FunDecl → FunDecl
  | ⟨name, params, body⟩ => ⟨name.reline g, params.map (List.map (Token.reline g)), Stmt.relineAll body⟩

def FunDecl.relineAll : List FunDecl → List FunDecl
  | [] => []
  | f :: rest => f.reline :: FunDecl.relineAll rest

end

theorem Expr.relineAll_eq_map (es : List Expr) : Expr.relineAll g es = es.map (Expr.reline g) := by
  induction es with
  | nil => rfl
  | cons _ _ ih => rw [Expr.relineAll, ih, List.map_cons]

theorem Stmt.relineAll_eq_map (body : List Stmt) : Stmt.relineAll g body = body.map (Stmt.reline g) := by
  induction body with
  | nil => rfl
  | cons _ _ ih => rw [Stmt.relineAll, ih, List.map_cons]

theorem FunDecl.relineAll_eq_map (fs : List FunDecl) :
    FunDecl.relineAll g fs = fs.map (FunDecl.reline g) := by
  induction fs with
  | nil => rfl
  | cons _ _ ih => rw [FunDecl.relineAll, ih, List.map_cons]

variable (h : Relining)

theorem Token.reline_reline (t : Token) : (t.reline h).reline g = t.reline (g.comp h) := rfl

theorem bind_bind_depth (depth : Option Nat) : (depth.bind h.depth).bind g.depth = depth.bind (g.comp h).depth :=
  Option.bind_assoc ..

theorem NameRef.reline_reline : NameRef.reline g ∘ NameRef.reline h = NameRef.reline (g.comp h) := by
  funext ref
  exact congrArg (NameRef.mk _) (bind_bind_depth g h ref.depth)

mutual

theorem Expr.reline_reline : ∀ e : Expr, (e.reline h).reline g = e.reline (g.comp h)
  | .binary left _ right | .logical left _ right => by
    simp only [Expr.reline, Expr.reline_reline left, Expr.reline_reline right, Token.reline_reline]
  | .unary _ operand => by simp only [Expr.reline, Expr.reline_reline operand, Token.reline_reline]
  | .conditional test yes no => by
    simp only [Expr.reline, Expr.reline_reline test, Expr.reline_reline yes, Expr.reline_reline no]
  | .grouping inner => by simp only [Expr.reline, Expr.reline_reline inner]
  | .literal _ | .missing => rfl
  | .var .. | .this .. | .super .. => by simp only [Expr.reline, Token.reline_reline, bind_bind_depth]
  | .assign _ value _ => by simp only [Expr.reline, Expr.reline_reline value, Token.reline_reline, bind_bind_depth]
  | .call callee _ arguments => by
    simp only [Expr.reline, Expr.reline_reline callee, Expr.relineAll_relineAll arguments, Token.reline_reline]
  | .get object _ => by simp only [Expr.reline, Expr.reline_reline object, Token.reline_reline]
  | .set object _ value => by
    simp only [Expr.reline, Expr.reline_reline object, Expr.reline_reline value, Token.reline_reline]

theorem Expr.relineAll_relineAll : ∀ es : List Expr, Expr.relineAll g (Expr.relineAll h es) = Expr.relineAll (g.comp h) es
  | [] => rfl
  | e :: rest => by simp only [Expr.relineAll, Expr.reline_reline e, Expr.relineAll_relineAll rest]

end

theorem map_expr_reline (e : Option Expr) :
    (e.map (Expr.reline h)).map (Expr.reline g) = e.map (Expr.reline (g.comp h)) := by
  cases e with
  | none => rfl
  | some e => exact congrArg some (Expr.reline_reline g h e)

mutual

theorem Stmt.reline_reline : ∀ s : Stmt, (s.reline h).reline g = s.reline (g.comp h)
  | .expression value | .print value => by simp only [Stmt.reline, Expr.reline_reline]
  | .var _ _ | .returnValue _ _ => by simp only [Stmt.reline, map_expr_reline, Token.reline_reline]
  | .block body => by simp only [Stmt.reline, Stmt.relineAll_relineAll body]
  | .ifElse _ yes none => by simp only [Stmt.reline, Expr.reline_reline, Stmt.reline_reline yes]
  | .ifElse _ yes (some no) => by
    simp only [Stmt.reline, Expr.reline_reline, Stmt.reline_reline yes, Stmt.reline_reline no]
  | .whileLoop _ body => by simp only [Stmt.reline, Expr.reline_reline, Stmt.reline_reline body]
  | .breakLoop | .missing => rfl
  | .function decl => by simp only [Stmt.reline, FunDecl.reline_reline decl]
  | .classDef ⟨_, superclass, methods, own, traits⟩ => by
    simp only [Stmt.reline, FunDecl.relineAll_relineAll methods, FunDecl.relineAll_relineAll own,
      Token.reline_reline, Option.map_map, List.map_map, NameRef.reline_reline]
  | .traitDef ⟨_, traits, methods⟩ => by
    simp only [Stmt.reline, FunDecl.relineAll_relineAll methods, Token.reline_reline, List.map_map,
      NameRef.reline_reline]

theorem Stmt.relineAll_relineAll :
    ∀ body : List Stmt, Stmt.relineAll g (Stmt.relineAll h body) = Stmt.relineAll (g.comp h) body
  | [] => rfl
  | s :: rest => by simp only [Stmt.relineAll, Stmt.reline_reline s, Stmt.relineAll_relineAll rest]

theorem FunDecl.reline_reline : ∀ f : FunDecl, (f.reline h).reline g = f.reline (g.comp h)
  | ⟨_, params, body⟩ => by
    simp only [FunDecl.reline, Stmt.relineAll_relineAll body, Token.reline_reline, Option.map_map]
    congr 1
    cases params with
    | none => rfl
    | some =>
      simp only [Option.map_some, Function.comp_apply, List.map_map]
      rfl

theorem FunDecl.relineAll_relineAll :
    ∀ fs : List FunDecl, FunDecl.relineAll g (FunDecl.relineAll h fs) = FunDecl.relineAll (g.comp h) fs
  | [] => rfl
  | f :: rest => by simp only [FunDecl.relineAll, FunDecl.reline_reline f, FunDecl.relineAll_relineAll rest]

end

end

namespace Grammar

variable (g : Relining)

def Phrase.reline : Phrase → Phrase
  | .expression layer e => .expression layer (e.reline g)
  | .arguments values => .arguments (Expr.relineAll g values)
  | .optional e => .optional (e.map (Expr.reline g))
  | .definition s => .definition (s.reline g)
  | .initializer s => .initializer (s.map (Stmt.reline g))
  | .statement s isOpen => .statement (s.reline g) isOpen
  | .declaration s => .declaration (s.reline g)
  | .declarations body => .declarations (Stmt.relineAll g body)
  | .function kind f => .function kind (f.reline g)
  | .members list => .members (list.map fun m => (m.1, m.2.reline g))
  | .methods list => .methods (FunDecl.relineAll g list)

variable {g} {fits : Nat → Prop}

theorem Names.reline {names ts : List Token} (written : Names names ts) :
    Names (names.map (Token.reline g)) (ts.map (Token.reline g)) := by
  induction written with
  | one isName => exact .one isName
  | more isName isComma _ ih => exact .more isName isComma ih

theorem Parameters.reline {kind : FunctionKind} {params : Option (List Token)} {ts : List Token}
    (written : Parameters fits kind params ts) :
    Parameters fits kind (params.map (List.map (Token.reline g))) (ts.map (Token.reline g)) := by
  cases written with
  | getter => exact .getter
  | empty isLeft isRight => exact .empty isLeft isRight
  | @list _ left right names ts isLeft isRight params fit =>
    have moved : Parameters fits kind (some (names.map (Token.reline g)))
        (left.reline g :: ts.map (Token.reline g) ++ [right.reline g]) :=
      .list isLeft isRight params.reline (by simpa using fit)
    simpa using moved

theorem Extends.reline {base : Option NameRef} {ts : List Token} (written : Extends base ts) :
    Extends (base.map (NameRef.reline g)) (ts.map (Token.reline g)) := by
  cases written with
  | nothing => exact .nothing
  | base isLess isName => exact .base isLess isName

theorem Includes.reline {traits : List NameRef} {ts : List Token} (written : Includes traits ts) :
    Includes (traits.map (NameRef.reline g)) (ts.map (Token.reline g)) := by
  cases written with
  | nothing => exact .nothing
  | @traits keyword names ts isWith list =>
    have same : (names.map fun name => (⟨name, none⟩ : NameRef)).map (NameRef.reline g) =
        (names.map (Token.reline g)).map fun name => ⟨name, none⟩ := by
      simp only [List.map_map]
      rfl
    rw [same]
    exact .traits isWith list.reline

theorem reline_join (layer : Layer) (left right : Expr) (op : Token) :
    (layer.join left op right).reline g = layer.join (left.reline g) (op.reline g) (right.reline g) := by
  cases layer <;> rfl

theorem reline_forLoop (first : Option Stmt) (c increment : Option Expr) (body : Stmt) :
    (forLoop first c increment body).reline g =
      forLoop (first.map (Stmt.reline g)) (c.map (Expr.reline g)) (increment.map (Expr.reline g)) (body.reline g) := by
  cases first <;> cases c <;> cases increment <;> rfl

theorem filter_members (list : List (Bool × FunDecl)) (own : Bool → Bool) :
    FunDecl.relineAll g ((list.filter fun m => own m.1).map Prod.snd) =
      ((list.map fun m => (m.1, m.2.reline g)).filter fun m => own m.1).map Prod.snd := by
  rw [FunDecl.relineAll_eq_map, List.filter_map, List.map_map, List.map_map]
  rfl

/-- What is written with some tokens is written on other lines with these tokens there, by induction on how it is
written. -/
theorem Derives.reline {p : Phrase} {ts : List Token} (derived : Derives fits p ts) :
    Derives fits (p.reline g) (ts.map (Token.reline g)) := by
  induction derived with try simp only [List.map_append, List.map_cons, List.map_nil]
  | inner next _ part => exact .inner next part
  | joined next isOp _ _ first second =>
    rw [Phrase.reline, reline_join]
    exact .joined next isOp first second
  | conditional isMark isColon _ _ _ test yes no => exact .conditional isMark isColon test yes no
  | assign isName isEquals _ source => exact .assign isName isEquals source
  | set isDot isName isEquals _ _ target source => exact .set isDot isName isEquals target source
  | signed isSign _ part => exact .signed isSign part
  | @call _ _ _ values _ _ isLeft isRight fit _ _ target list =>
    exact .call isLeft isRight (by simpa [Expr.relineAll_eq_map] using fit) target list
  | get isDot isName _ target => exact .get isDot isName target
  | literal isLiteral => exact .literal isLiteral
  | name isName => exact .name isName
  | this isThis => exact .this isThis
  | super isSuper isDot isName => exact .super isSuper isDot isName
  | group isLeft isRight _ part => exact .group isLeft isRight part
  | noArguments => exact .noArguments
  | oneArgument _ part => exact .oneArgument part
  | moreArguments isComma _ _ part others => exact .moreArguments isComma part others
  | absent => exact .absent
  | present _ part => exact .present part
  | unset isName isEnd => exact .unset isName isEnd
  | valued isName isEquals isEnd _ part => exact .valued isName isEquals isEnd part
  | noInitializer isEnd => exact .noInitializer isEnd
  | newVariable isVar _ part => exact .newVariable isVar part
  | firstValue isEnd _ part => exact .firstValue isEnd part
  | evaluation isEnd _ part => exact .evaluation isEnd part
  | print isPrint isEnd _ part => exact .print isPrint isEnd part
  | returned isReturn isEnd _ part => exact .returned isReturn isEnd part
  | broken isBreak isEnd => exact .broken isBreak isEnd
  | block isLeft isRight _ part => exact .block isLeft isRight part
  | ifThen isIf isLeft isRight _ _ test yes => exact .ifThen isIf isLeft isRight test yes
  | ifElse isIf isLeft isRight isElse _ _ _ test yes no => exact .ifElse isIf isLeft isRight isElse test yes no
  | «while» isWhile isLeft isRight _ _ test body => exact .while isWhile isLeft isRight test body
  | «for» isFor isLeft isEnd isRight _ _ _ _ start test step body =>
    rw [Phrase.reline, reline_forLoop]
    exact .for isFor isLeft isEnd isRight start test step body
  | @classDef _ _ _ _ _ _ members _ _ _ isClass isName isLeft isRight extension inclusion _ body =>
    rw [Phrase.reline, Stmt.reline, filter_members members (fun own => !own), filter_members members (fun own => own)]
    exact .classDef isClass isName isLeft isRight extension.reline inclusion.reline body
  | traitDef isTrait isName isLeft isRight inclusion _ body =>
    exact .traitDef isTrait isName isLeft isRight inclusion.reline body
  | functionDef isFun _ part => exact .functionDef isFun part
  | varDef isVar _ part => exact .varDef isVar part
  | plain _ part => exact .plain part
  | noDeclarations => exact .noDeclarations
  | moreDeclarations _ _ first others => exact .moreDeclarations first others
  | function isName isLeft isRight list _ part => exact .function isName isLeft isRight list.reline part
  | noMembers => exact .noMembers
  | ownMember isClass _ _ first others => exact .ownMember isClass first others
  | member _ _ first others => exact .member first others
  | noMethods => exact .noMethods
  | method _ _ first others => exact .method first others

theorem Derives.append {first second : List Stmt} {ts us : List Token} (one : Derives fits (.declarations first) ts)
    (two : Derives fits (.declarations second) us) : Derives fits (.declarations (first ++ second)) (ts ++ us) := by
  induction first generalizing ts with
  | nil =>
    cases one
    exact two
  | cons _ _ ih =>
    cases one with
    | moreDeclarations head others =>
      rw [List.append_assoc]
      exact .moreDeclarations head (ih others)

end Grammar
end LoxLang
