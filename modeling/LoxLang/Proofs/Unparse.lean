import LoxLang.Proofs.Completeness
import LoxLang.Proofs.Trees

/-!
Reading inverts writing. A syntax tree is written as tokens without any parentheses of its own; a tree whose operands
stand in layers that are tight enough is what the tokens are read as.
-/

namespace LoxLang

namespace Grammar

/-- How the tokens are written that a tree does not keep. -/
structure Spelling where
  token : TokenKind → Token
  literal : Literal → Token
  kind_token (kind : TokenKind) : (token kind).kind = kind
  literalOf?_literal (value : Literal) : literalOf? (literal value) = some value

/-- Items with a token between them. -/
def separated (separator : Token) : List (List Token) → List Token
  | [] => []
  | [item] => item
  | item :: next :: rest => item ++ separator :: separated separator (next :: rest)

namespace Spelling
variable (w : Spelling)

mutual

/-- The tokens of an expression. -/
def expression : Expr → List Token
  | .binary left op right => expression left ++ op :: expression right
  | .logical left op right => expression left ++ op :: expression right
  | .unary op operand => op :: expression operand
  | .conditional test yes no =>
    expression test ++ w.token .question :: (expression yes ++ w.token .colon :: expression no)
  | .grouping inner => w.token .leftParen :: (expression inner ++ [w.token .rightParen])
  | .literal value => [w.literal value]
  | .var name _ => [name]
  | .assign name value _ => name :: w.token .equal :: expression value
  | .call callee paren values =>
    expression callee ++ w.token .leftParen :: (separated (w.token .comma) (expressions values) ++ [paren])
  | .get object name => expression object ++ [w.token .dot, name]
  | .set object name value =>
    expression object ++ w.token .dot :: name :: w.token .equal :: expression value
  | .this keyword _ => [keyword]
  | .super keyword method _ => [keyword, w.token .dot, method]
  | .missing => []

def expressions : List Expr → List (List Token)
  | [] => []
  | e :: rest => expression e :: expressions rest

end

def names (list : List Token) : List Token := separated (w.token .comma) (list.map fun name => [name])

def parameters : Option (List Token) → List Token
  | none => []
  | some params => w.token .leftParen :: names w params ++ [w.token .rightParen]

def superclass : Option NameRef → List Token
  | none => []
  | some base => [w.token .less, base.name]

def traits : List NameRef → List Token
  | [] => []
  | refs => w.token .kwWith :: names w (refs.map NameRef.name)

mutual

/-- The tokens of a statement or a declaration. -/
def statement : Stmt → List Token
  | .expression value => w.expression value ++ [w.token .semicolon]
  | .print value => w.token .kwPrint :: (w.expression value ++ [w.token .semicolon])
  | .var name initializer =>
    w.token .kwVar :: name ::
      match initializer with
      | none => [w.token .semicolon]
      | some value => w.token .equal :: (w.expression value ++ [w.token .semicolon])
  | .block body => w.token .leftBrace :: (statements body ++ [w.token .rightBrace])
  | .ifElse test yes none =>
    w.token .kwIf :: w.token .leftParen :: (w.expression test ++ w.token .rightParen :: statement yes)
  | .ifElse test yes (some no) =>
    w.token .kwIf :: w.token .leftParen :: (w.expression test ++
      w.token .rightParen :: (statement yes ++ w.token .kwElse :: statement no))
  | .whileLoop test body =>
    w.token .kwWhile :: w.token .leftParen :: (w.expression test ++ w.token .rightParen :: statement body)
  | .breakLoop => [w.token .kwBreak, w.token .semicolon]
  | .returnValue keyword value => keyword :: ((value.map w.expression).getD [] ++ [w.token .semicolon])
  | .function decl => w.token .kwFun :: function decl
  | .classDef ⟨name, base, methods, own, included⟩ =>
    w.token .kwClass :: name :: (w.superclass base ++ (w.traits included ++
      w.token .leftBrace :: (functions methods ++ ownFunctions own ++ [w.token .rightBrace])))
  | .traitDef ⟨name, included, methods⟩ =>
    w.token .kwTrait :: name :: (w.traits included ++ w.token .leftBrace :: (functions methods ++ [w.token .rightBrace]))
  | .missing => []

def statements : List Stmt → List Token
  | [] => []
  | s :: rest => statement s ++ statements rest

def function : FunDecl → List Token
  | ⟨name, params, body⟩ =>
    name :: (w.parameters params ++ w.token .leftBrace :: (statements body ++ [w.token .rightBrace]))

def functions : List FunDecl → List Token
  | [] => []
  | f :: rest => function f ++ functions rest

def ownFunctions : List FunDecl → List Token
  | [] => []
  | f :: rest => w.token .kwClass :: (function f ++ ownFunctions rest)

end

end Spelling
end Grammar

open Grammar

mutual

/-- The expression can stand where one of the layer is asked for: it and its operands are of layers that are tight
enough, names are names, operators belong to their layers, and no name is resolved yet. -/
def Expr.stands (at_ : Layer) : Expr → Bool
  | .binary left op right => [Layer.equality, .comparison, .term, .factor].any fun layer =>
    at_.tightness ≤ layer.tightness && op.kind ∈ layer.operators && left.stands layer &&
      layer.inner?.any fun operand => right.stands operand
  | .logical left op right => [Layer.disjunction, .conjunction].any fun layer =>
    at_.tightness ≤ layer.tightness && op.kind ∈ layer.operators && left.stands layer &&
      layer.inner?.any fun operand => right.stands operand
  | .unary op operand =>
    at_.tightness ≤ Layer.unary.tightness && op.kind ∈ [TokenKind.bang, .minus] && operand.stands .unary
  | .conditional test yes no =>
    at_.tightness ≤ Layer.conditional.tightness && test.stands .assignment && yes.stands .conditional &&
      no.stands .conditional
  | .grouping inner => inner.stands .conditional
  | .literal _ => true
  | .var name depth => name.kind = .identifier && depth.isNone
  | .assign name value depth =>
    at_.tightness ≤ Layer.assignment.tightness && name.kind = .identifier && depth.isNone && value.stands .assignment
  | .call callee paren values =>
    at_.tightness ≤ Layer.call.tightness && callee.stands .call && paren.kind = .rightParen &&
      values.length ≤ maxArguments && Expr.standAll values
  | .get object name => at_.tightness ≤ Layer.call.tightness && object.stands .call && name.kind = .identifier
  | .set object name value =>
    at_.tightness ≤ Layer.assignment.tightness && object.stands .call && name.kind = .identifier &&
      value.stands .assignment
  | .this keyword depth => keyword.kind = .kwThis && depth.isNone
  | .super keyword method depth => keyword.kind = .kwSuper && method.kind = .identifier && depth.isNone
  | .missing => false

def Expr.standAll : List Expr → Bool
  | [] => true
  | e :: rest => e.stands .conditional && Expr.standAll rest

end

/-- A name that is not resolved yet. -/
def NameRef.wellFormed (ref : NameRef) : Bool := ref.name.kind = .identifier && ref.depth.isNone

/-- An `else` behind the statement would become a part of it. -/
def Stmt.endsOpen : Stmt → Bool
  | .ifElse _ _ none => true
  | .ifElse _ _ (some no) => no.endsOpen
  | .whileLoop _ body => body.endsOpen
  | _ => false

mutual

/-- The statement has the shape of one that can be written. -/
def Stmt.wellFormed : Stmt → Bool
  | .expression value => value.stands .conditional
  | .print value => value.stands .conditional
  | .var name initializer => name.kind = .identifier && initializer.any (·.stands .conditional)
  | .block body => Stmt.allWellFormed body
  | .ifElse test yes none =>
    test.stands .conditional && yes.isPlain && yes.wellFormed
  | .ifElse test yes (some no) =>
    test.stands .conditional && yes.isPlain && yes.wellFormed && !yes.endsOpen &&
      no.isPlain && no.wellFormed
  | .whileLoop test body => test.stands .conditional && body.isPlain && body.wellFormed
  | .breakLoop => true
  | .returnValue keyword value => keyword.kind = .kwReturn && value.all (·.stands .conditional)
  | .function decl => decl.params.isSome && decl.wellFormed
  | .classDef ⟨name, base, methods, own, traits⟩ =>
    name.kind = .identifier && base.all NameRef.wellFormed && traits.all NameRef.wellFormed &&
      FunDecl.allWellFormed methods && FunDecl.allWellFormed own
  | .traitDef ⟨name, traits, methods⟩ =>
    name.kind = .identifier && traits.all NameRef.wellFormed && FunDecl.allWellFormed methods
  | .missing => false

def Stmt.allWellFormed : List Stmt → Bool
  | [] => true
  | s :: rest => s.wellFormed && Stmt.allWellFormed rest

/-- The function has a name, few enough parameters that are names, and a body that can be written. -/
def FunDecl.wellFormed : FunDecl → Bool
  | ⟨name, params, body⟩ => name.kind = .identifier &&
    params.all (fun params => params.length ≤ maxArguments && params.all (·.kind = .identifier)) &&
      Stmt.allWellFormed body

def FunDecl.allWellFormed : List FunDecl → Bool
  | [] => true
  | f :: rest => f.wellFormed && FunDecl.allWellFormed rest

end

namespace Grammar

theorem Layer.tightness_le_primary (layer : Layer) : layer.tightness ≤ Layer.primary.tightness := by
  cases layer <;> decide

theorem Derives.loosen {fits : Nat → Prop} {at_ layer : Layer} {e : Expr} {ts : List Token}
    (tight : at_.tightness ≤ layer.tightness) (h : Derives fits (.expression layer e) ts) :
    Derives fits (.expression at_ e) ts := by
  induction gap : layer.tightness - at_.tightness generalizing at_ with
  | zero =>
    have same : at_ = layer := by
      cases at_ <;> cases layer <;> simp [Layer.tightness] at tight gap <;> rfl
    exact same ▸ h
  | succ gap ih =>
    cases next : at_.inner? with
    | none =>
      cases at_ <;> cases next
      cases layer <;> simp [Layer.tightness] at gap
    | some inner =>
      have deeper := Layer.tightness_inner next
      exact .inner next (ih (by omega) (by omega))

/-- Two operands joined by an operator of a layer that groups to the left. -/
theorem Derives.of_layers {layers : List Layer} {at_ : Layer} {left right : Expr} {op : Token} {ls rs : List Token}
    (stands : (layers.any fun layer => at_.tightness ≤ layer.tightness && op.kind ∈ layer.operators &&
      left.stands layer && layer.inner?.any fun operand => right.stands operand) = true)
    (first : ∀ layer, left.stands layer = true → Derives (· ≤ maxArguments) (.expression layer left) ls)
    (second : ∀ layer, right.stands layer = true → Derives (· ≤ maxArguments) (.expression layer right) rs) :
    ∃ layer ∈ layers, Derives (· ≤ maxArguments) (.expression at_ (layer.join left op right)) (ls ++ op :: rs) := by
  simp only [List.any_eq_true, Bool.and_eq_true, decide_eq_true_eq, Option.any_eq_true] at stands
  obtain ⟨layer, member, ⟨⟨tight, isOp⟩, leftStands⟩, operand, next, rightStands⟩ := stands
  exact ⟨layer, member, .loosen tight (.joined next isOp (first layer leftStands) (second operand rightStands))⟩

mutual

/-- An expression is written as one of the layer that it stands in. -/
theorem derives_expression (w : Spelling) : ∀ (e : Expr) (at_ : Layer), e.stands at_ = true →
    Derives (· ≤ maxArguments) (.expression at_ e) (w.expression e)
  | .binary left op right, at_, stands => by
    obtain ⟨layer, member, derived⟩ := Derives.of_layers (by simpa only [Expr.stands] using stands)
      (derives_expression w left) (derives_expression w right)
    have isBinary : layer.join = .binary := by
      simp only [List.mem_cons, List.not_mem_nil, or_false] at member
      rcases member with rfl | rfl | rfl | rfl <;> rfl
    simpa only [Spelling.expression, isBinary] using derived
  | .logical left op right, at_, stands => by
    obtain ⟨layer, member, derived⟩ := Derives.of_layers (by simpa only [Expr.stands] using stands)
      (derives_expression w left) (derives_expression w right)
    have isLogical : layer.join = .logical := by
      simp only [List.mem_cons, List.not_mem_nil, or_false] at member
      rcases member with rfl | rfl <;> rfl
    simpa only [Spelling.expression, isLogical] using derived
  | .unary op operand, at_, stands => by
    simp only [Expr.stands, Bool.and_eq_true, decide_eq_true_eq] at stands
    obtain ⟨⟨tight, isSign⟩, part⟩ := stands
    simpa only [Spelling.expression] using
      Derives.loosen tight (.signed isSign (derives_expression w operand .unary part))
  | .conditional c t e, at_, stands => by
    simp only [Expr.stands, Bool.and_eq_true, decide_eq_true_eq] at stands
    obtain ⟨⟨⟨tight, test⟩, yes⟩, no⟩ := stands
    simpa only [Spelling.expression] using Derives.loosen tight (.conditional (w.kind_token _) (w.kind_token _)
      (derives_expression w c _ test) (derives_expression w t _ yes) (derives_expression w e _ no))
  | .grouping inner, at_, stands => by
    simp only [Expr.stands] at stands
    simpa only [Spelling.expression] using
      Derives.loosen at_.tightness_le_primary (.group (w.kind_token _) (w.kind_token _) (derives_expression w inner _ stands))
  | .literal value, at_, _ => by
    simpa only [Spelling.expression] using Derives.loosen at_.tightness_le_primary (.literal (w.literalOf?_literal value))
  | .var name depth, at_, stands => by
    simp only [Expr.stands, Bool.and_eq_true, decide_eq_true_eq, Option.isNone_iff_eq_none] at stands
    obtain ⟨isName, rfl⟩ := stands
    simpa only [Spelling.expression] using Derives.loosen at_.tightness_le_primary (.name isName)
  | .assign name value depth, at_, stands => by
    simp only [Expr.stands, Bool.and_eq_true, decide_eq_true_eq, Option.isNone_iff_eq_none] at stands
    obtain ⟨⟨⟨tight, isName⟩, rfl⟩, source⟩ := stands
    simpa only [Spelling.expression] using
      Derives.loosen tight (.assign isName (w.kind_token _) (derives_expression w value _ source))
  | .call callee paren values, at_, stands => by
    simp only [Expr.stands, Bool.and_eq_true, decide_eq_true_eq] at stands
    obtain ⟨⟨⟨⟨tight, target⟩, isRight⟩, fit⟩, list⟩ := stands
    simpa only [Spelling.expression] using Derives.loosen tight (.call (w.kind_token _) isRight fit
      (derives_expression w callee _ target) (derives_arguments w values list))
  | .get object name, at_, stands => by
    simp only [Expr.stands, Bool.and_eq_true, decide_eq_true_eq] at stands
    obtain ⟨⟨tight, target⟩, isName⟩ := stands
    simpa only [Spelling.expression] using
      Derives.loosen tight (.get (w.kind_token _) isName (derives_expression w object _ target))
  | .set object name value, at_, stands => by
    simp only [Expr.stands, Bool.and_eq_true, decide_eq_true_eq] at stands
    obtain ⟨⟨⟨tight, target⟩, isName⟩, source⟩ := stands
    simpa only [Spelling.expression] using Derives.loosen tight (.set (w.kind_token _) isName (w.kind_token _)
      (derives_expression w object _ target) (derives_expression w value _ source))
  | .this keyword depth, at_, stands => by
    simp only [Expr.stands, Bool.and_eq_true, decide_eq_true_eq, Option.isNone_iff_eq_none] at stands
    obtain ⟨isThis, rfl⟩ := stands
    simpa only [Spelling.expression] using Derives.loosen at_.tightness_le_primary (.this isThis)
  | .super keyword method depth, at_, stands => by
    simp only [Expr.stands, Bool.and_eq_true, decide_eq_true_eq, Option.isNone_iff_eq_none] at stands
    obtain ⟨⟨isSuper, isName⟩, rfl⟩ := stands
    simpa only [Spelling.expression] using Derives.loosen at_.tightness_le_primary (.super isSuper (w.kind_token _) isName)
  | .missing, at_, stands => by simp [Expr.stands] at stands

theorem derives_arguments (w : Spelling) : ∀ values : List Expr, Expr.standAll values = true →
    Derives (· ≤ maxArguments) (.arguments values) (separated (w.token .comma) (w.expressions values))
  | [], _ => .noArguments
  | [e], stands => by
    simp only [Expr.standAll, Bool.and_true] at stands
    exact .oneArgument (derives_expression w e _ stands)
  | e :: next :: rest, stands => by
    rw [Expr.standAll, Bool.and_eq_true] at stands
    exact .moreArguments (w.kind_token _) (derives_expression w e _ stands.1)
      (derives_arguments w (next :: rest) stands.2)

end

theorem names_written (w : Spelling) : ∀ (first : Token) (rest : List Token),
    ((first :: rest).all (·.kind = .identifier)) = true → Names (first :: rest) (w.names (first :: rest))
  | first, [], isName => .one (by simpa using isName)
  | first, next :: rest, areNames => by
    rw [List.all_cons, Bool.and_eq_true, decide_eq_true_eq] at areNames
    exact .more areNames.1 (w.kind_token _) (names_written w next rest areNames.2)

theorem parameters_written (w : Spelling) {kind : FunctionKind} {params : Option (List Token)}
    (fit : params.all (fun params => params.length ≤ maxArguments && params.all (·.kind = .identifier)) = true)
    (getter : params = none → kind = .method) : Parameters (· ≤ maxArguments) kind params (w.parameters params) := by
  match params with
  | none => exact getter rfl ▸ .getter
  | some [] => exact .empty (w.kind_token _) (w.kind_token _)
  | some (first :: rest) =>
    rw [Option.all_some, Bool.and_eq_true, decide_eq_true_eq] at fit
    exact .list (w.kind_token _) (w.kind_token _) (names_written w first rest fit.2) fit.1

theorem superclass_written (w : Spelling) {base : Option NameRef} (isName : base.all NameRef.wellFormed = true) :
    Extends base (w.superclass base) := by
  match base with
  | none => exact .nothing
  | some ⟨name, depth⟩ =>
    simp only [Option.all_some, NameRef.wellFormed, Bool.and_eq_true, decide_eq_true_eq,
      Option.isNone_iff_eq_none] at isName
    obtain ⟨isName, rfl⟩ := isName
    exact .base (w.kind_token _) isName

theorem exists_names : ∀ {refs : List NameRef}, refs.all NameRef.wellFormed = true →
    ∃ names : List Token, refs = names.map (fun name => ⟨name, none⟩) ∧ names.all (·.kind = .identifier) = true
  | [], _ => ⟨[], rfl, rfl⟩
  | ⟨name, depth⟩ :: rest, areNames => by
    simp only [List.all_cons, NameRef.wellFormed, Bool.and_eq_true, decide_eq_true_eq,
      Option.isNone_iff_eq_none] at areNames
    obtain ⟨⟨isName, rfl⟩, others⟩ := areNames
    obtain ⟨names, rfl, identifiers⟩ := exists_names others
    exact ⟨name :: names, rfl, by simpa [isName] using identifiers⟩

theorem traits_written (w : Spelling) {refs : List NameRef} (areNames : refs.all NameRef.wellFormed = true) :
    Includes refs (w.traits refs) := by
  obtain ⟨names, rfl, identifiers⟩ := exists_names areNames
  cases names with
  | nil => exact .nothing
  | cons first rest =>
    have written := Includes.traits (w.kind_token .kwWith) (names_written w first rest identifiers)
    simpa [Spelling.traits, Function.comp_def] using written

theorem Derives.members_append {fits : Nat → Prop} {own : List (Bool × FunDecl)} {os : List Token}
    (last : Derives fits (.members own) os) : ∀ {methods : List FunDecl} {ms : List Token},
    Derives fits (.methods methods) ms → Derives fits (.members (methods.map (false, ·) ++ own)) (ms ++ os) := by
  intro methods ms h
  generalize same : Phrase.methods methods = p at h
  induction h generalizing methods with
  | noMethods => cases same; exact last
  | method first _ _ ih =>
    cases same
    simpa using Derives.member first (ih rfl)
  | _ => cases same

mutual

/-- A statement that is no declaration is written as one, and is open exactly when it ends in an `if` without `else`. -/
theorem derives_statement (w : Spelling) : ∀ s : Stmt, s.wellFormed = true → s.isPlain = true →
    Derives (· ≤ maxArguments) (.statement s s.endsOpen) (w.statement s)
  | .expression value, wellFormed, _ => by
    simp only [Stmt.wellFormed] at wellFormed
    exact .evaluation (w.kind_token _) (derives_expression w value _ wellFormed)
  | .print value, wellFormed, _ => by
    simp only [Stmt.wellFormed] at wellFormed
    exact .print (w.kind_token _) (w.kind_token _) (derives_expression w value _ wellFormed)
  | .block body, wellFormed, _ => by
    simp only [Stmt.wellFormed] at wellFormed
    exact .block (w.kind_token _) (w.kind_token _) (derives_statements w body wellFormed)
  | .ifElse c t none, wellFormed, _ => by
    simp only [Stmt.wellFormed, Bool.and_eq_true] at wellFormed
    obtain ⟨⟨test, plain⟩, yes⟩ := wellFormed
    exact .ifThen (w.kind_token _) (w.kind_token _) (w.kind_token _) (derives_expression w c _ test)
      (derives_statement w t yes plain)
  | .ifElse c t (some e), wellFormed, _ => by
    simp only [Stmt.wellFormed, Bool.and_eq_true, Bool.not_eq_true'] at wellFormed
    obtain ⟨⟨⟨⟨⟨test, plain⟩, yes⟩, closed⟩, plain'⟩, no⟩ := wellFormed
    have first := derives_statement w t yes plain
    rw [closed] at first
    exact .ifElse (w.kind_token _) (w.kind_token _) (w.kind_token _) (w.kind_token _) (derives_expression w c _ test)
      first (derives_statement w e no plain')
  | .whileLoop c s, wellFormed, _ => by
    simp only [Stmt.wellFormed, Bool.and_eq_true] at wellFormed
    obtain ⟨⟨test, plain⟩, body⟩ := wellFormed
    exact .while (w.kind_token _) (w.kind_token _) (w.kind_token _) (derives_expression w c _ test)
      (derives_statement w s body plain)
  | .breakLoop, _, _ => .broken (w.kind_token _) (w.kind_token _)
  | .returnValue keyword none, wellFormed, _ => by
    simp only [Stmt.wellFormed, Option.all_none, Bool.and_true, decide_eq_true_eq] at wellFormed
    exact .returned wellFormed (w.kind_token _) .absent
  | .returnValue keyword (some value), wellFormed, _ => by
    simp only [Stmt.wellFormed, Option.all_some, Bool.and_eq_true, decide_eq_true_eq] at wellFormed
    exact .returned wellFormed.1 (w.kind_token _) (.present (derives_expression w value _ wellFormed.2))
termination_by s => (sizeOf s, 0)

theorem derives_declaration (w : Spelling) : ∀ s : Stmt, s.wellFormed = true →
    Derives (· ≤ maxArguments) (.declaration s) (w.statement s)
  | .var name none, wellFormed => by simp [Stmt.wellFormed] at wellFormed
  | .var name (some value), wellFormed => by
    simp only [Stmt.wellFormed, Option.any_some, Bool.and_eq_true, decide_eq_true_eq] at wellFormed
    exact .varDef (w.kind_token _) (.valued wellFormed.1 (w.kind_token _) (w.kind_token _)
      (derives_expression w value _ wellFormed.2))
  | .function f, wellFormed => by
    simp only [Stmt.wellFormed, Bool.and_eq_true] at wellFormed
    refine .functionDef (w.kind_token _) (derives_function w f wellFormed.2 fun getter => ?_)
    rw [getter] at wellFormed
    simp at wellFormed
  | .classDef ⟨name, base, methods, classMethods, traits⟩, wellFormed => by
    simp only [Stmt.wellFormed, Bool.and_eq_true, decide_eq_true_eq] at wellFormed
    obtain ⟨⟨⟨⟨isName, base'⟩, traits'⟩, methods'⟩, own⟩ := wellFormed
    have every (fs : List FunDecl) : fs.filter (fun _ => true) = fs := List.filter_eq_self.mpr (by simp)
    have none (fs : List FunDecl) : fs.filter (fun _ => false) = [] := List.filter_eq_nil_iff.mpr (by simp)
    have members := (derives_ownMembers w classMethods own).members_append (derives_methods w methods methods')
    have derived := Derives.classDef (w.kind_token _) isName (w.kind_token _) (w.kind_token _)
      (superclass_written w base') (traits_written w traits') members
    simpa [Spelling.statement, List.filter_append, List.filter_map, Function.comp_def, every, none] using derived
  | .traitDef ⟨name, traits, methods⟩, wellFormed => by
    simp only [Stmt.wellFormed, Bool.and_eq_true, decide_eq_true_eq] at wellFormed
    obtain ⟨⟨isName, traits'⟩, methods'⟩ := wellFormed
    exact .traitDef (w.kind_token _) isName (w.kind_token _) (w.kind_token _) (traits_written w traits')
      (derives_methods w methods methods')
  | .missing, wellFormed => by simp [Stmt.wellFormed] at wellFormed
  | .expression value, wellFormed => .plain (derives_statement w (.expression value) wellFormed rfl)
  | .print value, wellFormed => .plain (derives_statement w (.print value) wellFormed rfl)
  | .block body, wellFormed => .plain (derives_statement w (.block body) wellFormed rfl)
  | .ifElse c t e, wellFormed => .plain (derives_statement w (.ifElse c t e) wellFormed rfl)
  | .whileLoop c s, wellFormed => .plain (derives_statement w (.whileLoop c s) wellFormed rfl)
  | .breakLoop, wellFormed => .plain (derives_statement w .breakLoop wellFormed rfl)
  | .returnValue keyword value, wellFormed => .plain (derives_statement w (.returnValue keyword value) wellFormed rfl)
termination_by s => (sizeOf s, 1)

theorem derives_statements (w : Spelling) : ∀ body : List Stmt, Stmt.allWellFormed body = true →
    Derives (· ≤ maxArguments) (.declarations body) (w.statements body)
  | [], _ => .noDeclarations
  | s :: rest, wellFormed => by
    rw [Stmt.allWellFormed, Bool.and_eq_true] at wellFormed
    exact .moreDeclarations (derives_declaration w s wellFormed.1) (derives_statements w rest wellFormed.2)
termination_by body => (sizeOf body, 0)

theorem derives_function (w : Spelling) {kind : FunctionKind} : ∀ f : FunDecl, f.wellFormed = true →
    (f.params = none → kind = .method) → Derives (· ≤ maxArguments) (.function kind f) (w.function f)
  | ⟨name, params, body⟩, wellFormed, getter => by
    simp only [FunDecl.wellFormed, Bool.and_eq_true, decide_eq_true_eq] at wellFormed
    obtain ⟨⟨isName, fit⟩, body'⟩ := wellFormed
    exact .function isName (w.kind_token _) (w.kind_token _) (parameters_written w (by simpa using fit) getter)
      (derives_statements w body body')
termination_by f => (sizeOf f, 0)

theorem derives_methods (w : Spelling) : ∀ methods : List FunDecl, FunDecl.allWellFormed methods = true →
    Derives (· ≤ maxArguments) (.methods methods) (w.functions methods)
  | [], _ => .noMethods
  | f :: rest, wellFormed => by
    rw [FunDecl.allWellFormed, Bool.and_eq_true] at wellFormed
    exact .method (derives_function w f wellFormed.1 fun _ => rfl) (derives_methods w rest wellFormed.2)
termination_by methods => (sizeOf methods, 0)

theorem derives_ownMembers (w : Spelling) : ∀ methods : List FunDecl, FunDecl.allWellFormed methods = true →
    Derives (· ≤ maxArguments) (.members (methods.map (true, ·))) (w.ownFunctions methods)
  | [], _ => .noMembers
  | f :: rest, wellFormed => by
    rw [FunDecl.allWellFormed, Bool.and_eq_true] at wellFormed
    exact .ownMember (w.kind_token _) (derives_function w f wellFormed.1 fun _ => rfl)
      (derives_ownMembers w rest wellFormed.2)
termination_by methods => (sizeOf methods, 0)

end

/-- Reading inverts writing: the tokens of well-formed statements are read as exactly those statements, without
complaints, and the end of the source is left. -/
theorem declarations_statements (w : Spelling) (program : List Stmt) (last : Token)
    (wellFormed : Stmt.allWellFormed program = true) (isEnd : last.kind = .endOfFile) :
    (declarations (w.statements program ++ [last]).length).run ⟨w.statements program ++ [last], []⟩ =
        .ok program ⟨[last], []⟩ ∧
      parseProgram (w.statements program ++ [last]) = ⟨.ok program, []⟩ := by
  have derived := derives_statements w program wellFormed
  exact ⟨declarations_of_derives derived isEnd, parseProgram_of_derives derived isEnd⟩

namespace Spelling

/-- The text of the tokens of a kind that always have the same text. -/
def text (kind : TokenKind) : String :=
  let word := TokenKind.keywords.findSome? fun (word, k) => if k = kind then some word else none
  let single := "()\x7b\x7d,.-+;*%?:".toList.findSome? fun c =>
    if TokenKind.ofChar? c = some kind then some (String.singleton c) else none
  let double := "!=<>".toList.findSome? fun c => (TokenKind.ofCharWithEqual? c).bind fun (alone, followed) =>
    if alone = kind then some (String.singleton c)
    else if followed = kind then some (String.singleton c ++ "=") else none
  (word <|> single <|> double).getD ""

/-- The spelling of the language, on one line. -/
def oneLine : Spelling where
  token kind := ⟨kind, text kind, .nil, 1⟩
  literal
    | .nil => ⟨.kwNil, text .kwNil, .nil, 1⟩
    | .bool true => ⟨.kwTrue, text .kwTrue, .nil, 1⟩
    | .bool false => ⟨.kwFalse, text .kwFalse, .nil, 1⟩
    | .number value => ⟨.number, Number.text value, .number value, 1⟩
    | .string value => ⟨.string, "\"" ++ value ++ "\"", .string value, 1⟩
  kind_token _ := rfl
  literalOf?_literal
    | .nil | .bool true | .bool false | .number _ | .string _ => rfl

end Spelling

/-- A trait with a getter, a class that extends another, includes two traits and has a method of its own, and a function
in which an `else` follows a loop; inside them all kinds of expressions. -/
def sampleProgram : List Stmt :=
  let name (text : String) : Token := ⟨.identifier, text, .nil, 1⟩
  let op (kind : TokenKind) : Token := ⟨kind, Spelling.text kind, .nil, 1⟩
  let var (text : String) : Expr := .var (name text) none
  let this : Expr := .this (op .kwThis) none
  let get : Expr := .get this (name "size")
  [ .traitDef ⟨name "Sized", [], [⟨name "twice", none,
      [.returnValue (op .kwReturn) (some (.binary get (op .plus) get))]⟩]⟩,
    .classDef ⟨name "Box", some ⟨name "Thing", none⟩,
      [⟨name "init", some [name "size"],
        [.expression (.set this (name "size") (.assign (name "last") (var "size") none)),
          .returnValue (op .kwReturn) none]⟩,
        ⟨name "open", some [], [.print (.call (.super (op .kwSuper) (name "open") none) (op .rightParen) [])]⟩],
      [⟨name "make", some [name "a", name "b"],
        [.returnValue (op .kwReturn) (some (.conditional (.logical (var "a") (op .kwAnd) (var "b"))
          (.call (var "Box") (op .rightParen) [var "a", .literal (.string "b")])
          (.unary (op .bang) (.grouping (.logical (var "a") (op .kwOr) (.literal .nil))))))]⟩],
      [⟨name "Sized", none⟩, ⟨name "Named", none⟩]⟩,
    .function ⟨name "run", some [],
      [.ifElse (.binary (.binary (var "a") (op .less) (var "b")) (op .equalEqual) (.literal (.bool true)))
        (.whileLoop (.literal (.bool false)) (.block [.breakLoop, .var (name "c") (some (.literal .nil))]))
        (some (.ifElse (var "c") .breakLoop none))]⟩ ]

theorem declarations_statements_sampleProgram :
    (Stmt.allWellFormed sampleProgram = true ∧ (Spelling.oneLine.token .endOfFile).kind = .endOfFile) ∧
      (declarations (Spelling.oneLine.statements sampleProgram ++ [Spelling.oneLine.token .endOfFile]).length).run
          ⟨Spelling.oneLine.statements sampleProgram ++ [Spelling.oneLine.token .endOfFile], []⟩ =
        .ok sampleProgram ⟨[Spelling.oneLine.token .endOfFile], []⟩ ∧
      parseProgram (Spelling.oneLine.statements sampleProgram ++ [Spelling.oneLine.token .endOfFile]) =
        ⟨.ok sampleProgram, []⟩ :=
  have wellFormed : Stmt.allWellFormed sampleProgram = true := by decide
  ⟨⟨wellFormed, rfl⟩, declarations_statements Spelling.oneLine sampleProgram _ wellFormed rfl⟩

end Grammar

end LoxLang
