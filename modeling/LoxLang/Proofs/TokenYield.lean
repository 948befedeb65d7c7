import LoxLang.Proofs.Unparse

/-!
What an expression was read from can be told from the tree. A tree keeps some of its tokens, of others only the kind
or the value; these imprints in the order of the source are the yield of the tree. An expression that is read without
a complaint yields exactly the tokens that were taken for it, and it stands in its layer: operators bind and group as
the grammar says, what is assigned to is a variable or a property, and no call has too many arguments.
-/

namespace LoxLang

variable {e : Expr} {layer : Layer}

namespace Grammar

/-- What a tree tells about one of the tokens that it was read from. -/
inductive Imprint where
  /-- The token itself, for names, operators, keywords of objects and the end of a call. -/
  | token (token : Token)
  /-- The kind, for the other signs. -/
  | kind (kind : TokenKind)
  /-- The value, for literals. -/
  | literal (value : Literal)

/-- The token can have left the imprint. -/
def Imprint.Left : Imprint → Token → Prop
  | token own, t => t = own
  | kind own, t => t.kind = own
  | literal value, t => literalOf? t = some value

end Grammar

open Grammar

mutual

/-- The imprints of an expression, in the order of the source. -/
def Expr.yield : Expr → List Imprint
  | .binary left op right => left.yield ++ .token op :: right.yield
  | .logical left op right => left.yield ++ .token op :: right.yield
  | .unary op operand => .token op :: operand.yield
  | .conditional test yes no =>
    test.yield ++ .kind .question :: (yes.yield ++ .kind .colon :: no.yield)
  | .grouping inner => .kind .leftParen :: (inner.yield ++ [.kind .rightParen])
  | .literal value => [.literal value]
  | .var name _ => [.token name]
  | .assign name value _ => .token name :: .kind .equal :: value.yield
  | .call callee paren values => callee.yield ++ .kind .leftParen :: (Expr.yieldAll values ++ [.token paren])
  | .get object name => object.yield ++ [.kind .dot, .token name]
  | .set object name value => object.yield ++ .kind .dot :: .token name :: .kind .equal :: value.yield
  | .this keyword _ => [.token keyword]
  | .super keyword method _ => [.token keyword, .kind .dot, .token method]
  | .missing => []

/-- The imprints of arguments with commas between them. -/
def Expr.yieldAll : List Expr → List Imprint
  | [] => []
  | [e] => e.yield
  | e :: next :: rest => e.yield ++ .kind .comma :: Expr.yieldAll (next :: rest)

end

/-- An expression stands somewhere in another, or is that other. -/
inductive Expr.PartOf : Expr → Expr → Prop where
  | whole (e : Expr) : PartOf e e
  | inside {part operand e : Expr} (among : operand ∈ e.operands) (deeper : PartOf part operand) : PartOf part e

/-- What is assigned to stands before the equals sign as a variable or as a property of an object, and a call has few
enough arguments. -/
def Expr.Lawful : Expr → Prop
  | .assign name value depth => (Expr.var name depth).stands .call = true ∧
    (Expr.assign name value depth).yield = (Expr.var name depth).yield ++ .kind .equal :: value.yield
  | .set object name value => (Expr.get object name).stands .call = true ∧
    (Expr.set object name value).yield = (Expr.get object name).yield ++ .kind .equal :: value.yield
  | .call _ _ values => values.length ≤ 255
  | _ => True

/-! ### Parts of an expression that stands -/

theorem Expr.stands_of_standAll {values : List Expr} (stand : Expr.standAll values = true) (among : e ∈ values) :
    e.stands .conditional = true := by
  induction values with
  | nil => cases among
  | cons _ _ ih =>
    simp only [Expr.standAll, Bool.and_eq_true] at stand
    rcases List.mem_cons.mp among with rfl | later
    · exact stand.1
    · exact ih stand.2 later

/-- The operands of an expression that stands in some layer stand in layers of their own. -/
theorem Expr.stands_operand {operand : Expr} {at_ : Layer} (stands : e.stands at_ = true)
    (among : operand ∈ e.operands) : ∃ layer, operand.stands layer = true := by
  cases e with
  | binary left op right | logical left op right =>
    simp only [Expr.stands, List.any_eq_true, Bool.and_eq_true, Option.any_eq_true] at stands
    obtain ⟨layer, -, ⟨-, first⟩, inner, -, second⟩ := stands
    simp only [Expr.operands, List.mem_cons, List.not_mem_nil, or_false] at among
    rcases among with rfl | rfl
    · exact ⟨layer, first⟩
    · exact ⟨inner, second⟩
  | conditional =>
    simp only [Expr.stands, Bool.and_eq_true] at stands
    obtain ⟨⟨⟨-, test⟩, yes⟩, no⟩ := stands
    simp only [Expr.operands, List.mem_cons, List.not_mem_nil, or_false] at among
    rcases among with rfl | rfl | rfl
    · exact ⟨_, test⟩
    · exact ⟨_, yes⟩
    · exact ⟨_, no⟩
  | call =>
    simp only [Expr.stands, Bool.and_eq_true] at stands
    obtain ⟨⟨⟨⟨-, target⟩, -⟩, -⟩, list⟩ := stands
    rcases List.mem_cons.mp among with rfl | later
    · exact ⟨_, target⟩
    · exact ⟨_, Expr.stands_of_standAll list later⟩
  | set =>
    simp only [Expr.stands, Bool.and_eq_true] at stands
    simp only [Expr.operands, List.mem_cons, List.not_mem_nil, or_false] at among
    rcases among with rfl | rfl
    · exact ⟨_, stands.1.1.2⟩
    · exact ⟨_, stands.2⟩
  | unary op inner | grouping inner | assign name inner depth | get inner name =>
    simp only [Expr.stands, Bool.and_eq_true] at stands
    simp only [Expr.operands, List.mem_singleton] at among
    subst among
    grind
  | literal | var | this | super | missing => cases among

theorem Expr.stands_part {part : Expr} {at_ : Layer} (inside : part.PartOf e) (stands : e.stands at_ = true) :
    ∃ layer, part.stands layer = true := by
  induction inside generalizing at_ with
  | whole => exact ⟨at_, stands⟩
  | inside among _ ih =>
    obtain ⟨layer, operand⟩ := Expr.stands_operand stands among
    exact ih operand

theorem Expr.yield_ne_nil (stands : e.stands layer = true) : e.yield ≠ [] := by
  cases e with
  | missing => simp [Expr.stands] at stands
  | _ => simp [Expr.yield]

theorem Expr.lawful_of_stands (stands : e.stands layer = true) : e.Lawful := by
  cases e with
  | assign =>
    simp only [Expr.stands, Bool.and_eq_true] at stands
    refine ⟨?_, by simp [Expr.yield]⟩
    simp only [Expr.stands, Bool.and_eq_true]
    exact ⟨stands.1.1.2, stands.1.2⟩
  | set =>
    simp only [Expr.stands, Bool.and_eq_true] at stands
    refine ⟨?_, by simp [Expr.yield]⟩
    simp only [Expr.stands, Bool.and_eq_true]
    exact ⟨⟨by decide, stands.1.1.2⟩, stands.1.2⟩
  | call =>
    simp only [Expr.stands, Bool.and_eq_true, decide_eq_true_eq] at stands
    exact stands.1.2
  | _ => exact trivial

namespace Grammar

/-! ### From derivations to yields -/

theorem Layer.stands_inner {outer : Layer} (next : outer.inner? = some layer) (stands : e.stands layer = true) :
    e.stands outer = true := by
  have deeper := Layer.tightness_inner next
  cases e with
  | binary left op right | logical left op right =>
    simp only [Expr.stands, List.any_eq_true, Bool.and_eq_true, decide_eq_true_eq] at stands ⊢
    obtain ⟨own, member, ⟨⟨tight, isOp⟩, first⟩, second⟩ := stands
    exact ⟨own, member, ⟨⟨by omega, isOp⟩, first⟩, second⟩
  | var | this | super | grouping | missing => simpa only [Expr.stands] using stands
  | literal => simp only [Expr.stands]
  | _ =>
    simp only [Expr.stands, Bool.and_eq_true, decide_eq_true_eq] at stands ⊢
    grind

theorem Layer.stands_join {operand : Layer} {left right : Expr} {op : Token} (next : layer.inner? = some operand)
    (isOp : op.kind ∈ layer.operators) (first : left.stands layer = true) (second : right.stands operand = true) :
    (layer.join left op right).stands layer = true := by
  cases layer with
  | conditional | assignment | unary | call | primary => cases isOp
  | disjunction | conjunction | equality | comparison | term | factor =>
    cases next
    simp only [Layer.join, Expr.stands, List.any_eq_true, Bool.and_eq_true, decide_eq_true_eq, Option.any_eq_true]
    exact ⟨_, by simp, ⟨⟨Nat.le_refl _, isOp⟩, first⟩, _, rfl, second⟩

theorem Layer.yield_join (layer : Layer) (left right : Expr) (op : Token) :
    (layer.join left op right).yield = left.yield ++ .token op :: right.yield := by
  cases layer <;> simp only [Layer.join, Expr.yield]

/-- The tokens left the imprints, one each. -/
abbrev Leave (imprints : List Imprint) (ts : List Token) : Prop := List.Forall₂ Imprint.Left imprints ts

/-- What a derivation of an expression or of arguments says: they stand, and yield the tokens. -/
def Phrase.Yielded : Phrase → List Token → Prop
  | .expression layer e, ts => e.stands layer = true ∧ Leave e.yield ts
  | .arguments values, ts => Expr.standAll values = true ∧ Leave (Expr.yieldAll values) ts
  | _, _ => True

theorem Leave.append {xs ys : List Imprint} {ts us : List Token} (first : Leave xs ts) (second : Leave ys us) :
    Leave (xs ++ ys) (ts ++ us) := List.rel_append first second

/-- A derivation with few enough arguments in every call gives an expression that stands and yields its tokens. The
other phrases hold no statement here, so only the rules for expressions matter. -/
theorem Derives.yielded {fits : Nat → Prop} (limit : ∀ count, fits count → count ≤ maxArguments) {p : Phrase}
    {ts : List Token} (h : Derives fits p ts) : p.Yielded ts := by
  induction h with
  | inner next _ ih => exact ⟨Layer.stands_inner next ih.1, ih.2⟩
  | joined next isOp _ _ first second =>
    refine ⟨Layer.stands_join next isOp first.1 second.1, ?_⟩
    rw [Layer.yield_join]
    exact first.2.append (.cons rfl second.2)
  | conditional isMark isColon _ _ _ test yes no =>
    refine ⟨?_, ?_⟩
    · simp only [Expr.stands, Bool.and_eq_true]
      exact ⟨⟨⟨by decide, test.1⟩, yes.1⟩, no.1⟩
    · simp only [Expr.yield]
      exact test.2.append (.cons isMark (yes.2.append (.cons isColon no.2)))
  | assign isName isEquals _ source =>
    refine ⟨?_, ?_⟩
    · simp [Expr.stands, isName, source.1]
    · simp only [Expr.yield]
      exact .cons rfl (.cons isEquals source.2)
  | set isDot isName isEquals _ _ target source =>
    refine ⟨?_, ?_⟩
    · simp [Expr.stands, isName, target.1, source.1]
    · simp only [Expr.yield]
      exact target.2.append (.cons isDot (.cons rfl (.cons isEquals source.2)))
  | signed isSign _ part =>
    refine ⟨?_, ?_⟩
    · simp only [Expr.stands, Bool.and_eq_true, decide_eq_true_eq]
      exact ⟨⟨Nat.le_refl _, isSign⟩, part.1⟩
    · simp only [Expr.yield]
      exact .cons rfl part.2
  | call isLeft isRight fit _ _ target list =>
    refine ⟨?_, ?_⟩
    · simp only [Expr.stands, Bool.and_eq_true, decide_eq_true_eq]
      exact ⟨⟨⟨⟨Nat.le_refl _, target.1⟩, isRight⟩, limit _ fit⟩, list.1⟩
    · simp only [Expr.yield]
      exact target.2.append (.cons isLeft (list.2.append (.cons rfl .nil)))
  | get isDot isName _ target =>
    refine ⟨?_, ?_⟩
    · simp [Expr.stands, isName, target.1]
    · simp only [Expr.yield]
      exact target.2.append (.cons isDot (.cons rfl .nil))
  | literal isLiteral =>
    refine ⟨by simp only [Expr.stands], ?_⟩
    simp only [Expr.yield]
    exact .cons isLiteral .nil
  | name isName | this isName =>
    refine ⟨by simp [Expr.stands, isName], ?_⟩
    simp only [Expr.yield]
    exact .cons rfl .nil
  | super isSuper isDot isName =>
    refine ⟨by simp [Expr.stands, isSuper, isName], ?_⟩
    simp only [Expr.yield]
    exact .cons rfl (.cons isDot (.cons rfl .nil))
  | group isLeft isRight _ part =>
    refine ⟨by simpa only [Expr.stands] using part.1, ?_⟩
    simp only [Expr.yield]
    exact .cons isLeft (part.2.append (.cons isRight .nil))
  | noArguments => exact ⟨rfl, .nil⟩
  | oneArgument _ part => exact ⟨by simp [Expr.standAll, part.1], by simpa only [Expr.yieldAll] using part.2⟩
  | moreArguments isComma _ _ part others =>
    refine ⟨?_, ?_⟩
    · rw [Expr.standAll, part.1, others.1]
      rfl
    · simp only [Expr.yieldAll]
      exact part.2.append (.cons isComma others.2)
  | _ => exact trivial

/-! ### What is read yields what was taken -/

/-- An expression read at any position without a complaint, for any bound on the tokens left: the tokens between the
position and the place where reading stops are the yield of the tree, each one once and in order; the tree stands in
the loosest layer, so every operator in it joins operands of its own layer on the left and of tighter ones on the
right, and what groups to the right does; and assignments and calls in it are lawful. -/
theorem expression_yields_taken (tokens : List Token) (position bound : Nat) (complaints : List Complaint) (e : Expr)
    (after : State) (read : expression bound ⟨tokens.drop position, complaints⟩ = .ok e after)
    (quiet : after.complaints = complaints) :
    ∃ final, position ≤ final ∧ final ≤ tokens.length ∧ after.rest = tokens.drop final ∧
      List.Forall₂ Imprint.Left e.yield ((tokens.drop position).take (final - position)) ∧
      e.stands .conditional = true ∧ ∀ part : Expr, part.PartOf e → part.Lawful := by
  have here := @yields_expression True bound ⟨tokens.drop position, complaints⟩
  rw [read] at here
  obtain ⟨more, made, left, reads⟩ := here
  have nothing : more = [] := by
    have same : complaints ++ more = complaints ++ [] := by rw [← made, quiet, List.append_nil]
    exact List.append_cancel_left same
  obtain ⟨ts, -, whole, derived⟩ := reads fun _ => nothing
  have split : tokens.drop position = ts ++ after.rest := whole trivial
  obtain ⟨stands, leave⟩ := derived.yielded fun count fit => fit trivial
  -- an expression is never empty, so the position is inside the list
  have inside : position + ts.length ≤ tokens.length := by
    have lengths : tokens.length - position = ts.length + after.rest.length := by
      rw [← List.length_drop, split, List.length_append]
    have filled : ts ≠ [] := by
      rintro rfl
      exact Expr.yield_ne_nil stands (List.forall₂_nil_right_iff.mp leave)
    have := List.length_pos_of_ne_nil filled
    omega
  refine ⟨position + ts.length, by omega, inside, ?_, ?_, stands, fun part partOf => ?_⟩
  · rw [← List.drop_drop, split, List.drop_left]
  · rw [Nat.add_sub_cancel_left, split, List.take_left]
    exact leave
  · obtain ⟨layer, partStands⟩ := Expr.stands_part partOf stands
    exact Expr.lawful_of_stands partStands

/-- The tokens of `; a.b = f("s", c)`. -/
def propertyTokens : List Token :=
  [⟨.semicolon, ";", .nil, 1⟩, ⟨.identifier, "a", .nil, 1⟩, ⟨.dot, ".", .nil, 1⟩, ⟨.identifier, "b", .nil, 1⟩,
   ⟨.equal, "=", .nil, 1⟩, ⟨.identifier, "f", .nil, 1⟩, ⟨.leftParen, "(", .nil, 1⟩, ⟨.string, "s", .string "s", 1⟩,
   ⟨.comma, ",", .nil, 1⟩, ⟨.identifier, "c", .nil, 1⟩, ⟨.rightParen, ")", .nil, 1⟩, ⟨.endOfFile, "", .nil, 1⟩]

theorem expression_yields_taken_property : ∃ (e : Expr) (after : State),
    expression 12 ⟨propertyTokens.drop 1, []⟩ = .ok e after ∧ after.complaints = [] ∧ after.rest.length = 1 ∧
      ∃ final, 1 ≤ final ∧ final ≤ propertyTokens.length ∧ after.rest = propertyTokens.drop final ∧
        List.Forall₂ Imprint.Left e.yield ((propertyTokens.drop 1).take (final - 1)) ∧
        e.stands .conditional = true ∧ ∀ part : Expr, part.PartOf e → part.Lawful :=
  ⟨_, _, rfl, rfl, rfl, expression_yields_taken propertyTokens 1 12 [] _ _ rfl rfl⟩

end Grammar
end LoxLang
