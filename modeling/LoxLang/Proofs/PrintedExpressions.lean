import LoxLang.Proofs.PrintedPrograms
import LoxLang.Proofs.Relining
import LoxLang.Proofs.Rescanning
import LoxLang.Proofs.Spelling

/-!
Printed expressions can be read back. The head of a printed tree and the number of its parts tell the kind of expression;
an atom is a string, a literal, `this`, a number or a name, and only the names `True`, `False` and `inf` could be taken for
something else. So expressions of sources without such names that are printed alike differ in the lines of their tokens only.
-/

namespace LoxLang

/-! ### Numerals denote numbers -/

namespace Number

open Float.Model

/-- A float whose bits say that it is no number is unpacked as none. -/
theorem unpack_of_parts {x : Float} (isNone : parts x = .notNumber) : x.toModel.unpack = .notANumber := by
  unfold parts at isNone
  dsimp only at isNone
  split at isNone
  · split at isNone
    · cases isNone
    · rename_i exponent fraction
      have isExponent : @UnpackedFloat.unpackExponent Format.binary64 x.toModel.toBits.toBitVec = -1#11 := by
        apply BitVec.eq_of_toNat_eq
        simpa [UnpackedFloat.unpackExponent, Nat.shiftRight_eq_div_pow, Float.toBits] using exponent
      have isMantissa : @UnpackedFloat.unpackMantissa Format.binary64 x.toModel.toBits.toBitVec ≠ 0#52 := by
        intro zero
        have := congrArg BitVec.toNat zero
        simp [UnpackedFloat.unpackMantissa] at this
        exact fraction this
      unfold unpack UnpackedFloat.unpack
      simp only [isExponent, isMantissa]
      simp
  · split at isNone <;> cases isNone

theorem unpack_pack_ne {f : UnpackedFloat} (h : f ≠ .notANumber) : (pack f).unpack ≠ .notANumber := by
  have ne (sign) (exponent : BitVec 11) (mantissa : BitVec 52) (h : exponent = -1#11 → mantissa = 0) :
      UnpackedFloat.unpack Format.binary64 (UnpackedFloat.packComponents Format.binary64 sign exponent mantissa) ≠ .notANumber := by
    unfold UnpackedFloat.unpack
    simp only [UnpackedFloat.unpackExponent_packComponents, UnpackedFloat.unpackMantissa_packComponents]
    grind
  unfold unpack pack
  simp only
  unfold UnpackedFloat.pack
  split
  · contradiction
  · exact ne _ _ _ fun _ => rfl
  · exact ne _ _ _ fun _ => rfl
  · dsimp only
    split
    · exact ne _ _ _ fun _ => rfl
    · rename_i small
      split
      · refine ne _ _ _ fun full => absurd (congrArg BitVec.toNat full) ?_
        simp [BitVec.toNat_ofNat]
        simp at small
        omega
      · exact ne _ _ _ fun zero => absurd zero (by decide)

theorem roundWithAccuracy_ne (sign m e accuracy) :
    UnpackedFloat.roundWithAccuracy Format.binary64 sign m e accuracy ≠ .notANumber := by
  unfold UnpackedFloat.roundWithAccuracy
  simp only
  split <;> simp

/-- Neither zero nor infinite, and a number. -/
def isFinite : UnpackedFloat → Bool
  | .finite _ _ _ _ => true
  | _ => false

theorem mul_div_ne {f g : UnpackedFloat} (isNumber : f ≠ .notANumber) (finite : isFinite g = true) :
    UnpackedFloat.mul Format.binary64 f g ≠ .notANumber ∧ UnpackedFloat.div Format.binary64 f g ≠ .notANumber := by
  cases g <;> cases finite
  cases f with
  | notANumber => contradiction
  | finite => exact ⟨roundWithAccuracy_ne _ _ _ _, roundWithAccuracy_ne _ _ _ _⟩
  | infinity | zero => simp [UnpackedFloat.mul, UnpackedFloat.div]

theorem ofScientific_ne (m : Nat) (e : Int) : UnpackedFloat.ofScientific Format.binary64 m e ≠ .notANumber := by
  unfold UnpackedFloat.ofScientific
  split
  · simp
  · split
    · simp
    · split
      · simp
      · split
        · exact (mul_div_ne UnpackedFloat.noConfusion rfl).1
        · exact (mul_div_ne UnpackedFloat.noConfusion rfl).2

theorem unpack_ofUInt64_ne (n : UInt64) : n.toFloat.toModel.unpack ≠ .notANumber := by
  refine unpack_pack_ne ?_
  unfold UnpackedFloat.ofUInt64 UnpackedFloat.ofNat UnpackedFloat.ofInt UnpackedFloat.normalize
  split
  · exact roundWithAccuracy_ne _ _ _ _
  · simp
  · exact roundWithAccuracy_ne _ _ _ _

theorem isFinite_power : ∀ e (small : e < 23), isFinite (Float.exactlyRepresentablePowersOfTen[e] : Float).toModel.unpack = true := by
  decide +kernel

theorem parts_ofDecimal_ne (digits : Nat) (exponent : Int) : parts (ofDecimal digits exponent) ≠ .notNumber := by
  unfold ofDecimal
  dsimp only
  split
  · decide +kernel
  · split
    · decide +kernel
    · refine fun isNone => absurd (unpack_of_parts isNone) ?_
      unfold Float.ofScientific
      split
      · rename_i small
        have finite := isFinite_power exponent.natAbs (by omega)
        dsimp only
        split
        · exact unpack_pack_ne (mul_div_ne (unpack_ofUInt64_ne _) finite).2
        · exact unpack_pack_ne (mul_div_ne (unpack_ofUInt64_ne _) finite).1
      · exact unpack_pack_ne (ofScientific_ne _ _)

theorem parts_readMagnitude?_ne {text : List Char} {value : Float} (read : readMagnitude? text = some value) :
    parts value ≠ .notNumber := by
  unfold readMagnitude? at read
  dsimp only at read
  split at read <;> split at read
  · cases read
  · obtain ⟨exponent, -, same⟩ := Option.bind_eq_some_iff.mp read
    exact Option.some.inj same ▸ parts_ofDecimal_ne _ _
  · cases read
  · obtain ⟨exponent, -, same⟩ := Option.bind_eq_some_iff.mp read
    exact Option.some.inj same ▸ parts_ofDecimal_ne _ _

theorem readWord?_numeral {c : Char} {more : List Char} (digit : (Text.isDigit c || c = '.') = true) :
    readWord? (c :: more) = none := by
  have noLetter : c.toLower ∉ ['i', 'n'] := by
    intro letter
    have among : c ∈ ['i', 'n', 'I', 'N'] := by
      simp only [Char.toLower, List.mem_cons, List.not_mem_nil, or_false] at letter ⊢
      split at letter <;> simp only [Char.ext_iff] at letter ⊢ <;> grind
    exact notMem_of_class (p := fun c => Text.isDigit c || c = '.') rfl digit among
  have other (d : Char) (rest : List Char) (letter : d ∈ ['i', 'n']) :
      String.ofList ((c :: more).map Char.toLower) ≠ String.ofList (d :: rest) := by
    rw [Ne, String.ofList_inj, List.map_cons]
    rintro ⟨⟩
    exact noLetter letter
  unfold readWord?
  rw [if_neg, if_neg]
  · exact other 'n' ['a', 'n'] (by simp)
  · rw [Bool.or_eq_true, decide_eq_true_eq, decide_eq_true_eq]
    exact not_or.mpr ⟨other 'i' ['n', 'f'] (by simp), other 'i' ['n', 'f', 'i', 'n', 'i', 't', 'y'] (by simp)⟩

theorem parts_ne_of_numeral {text : List Char} (digits : ∀ c ∈ text, Text.isDigit c = true ∨ c = '.') {value : Float}
    (read : read? (String.ofList text) = some value) : parts value ≠ .notNumber := by
  have trimmed : ∀ c ∈ Text.trimBy isMargin text, Text.isDigit c = true ∨ c = '.' := by
    intro c member
    have inner := (List.dropWhile_sublist _).subset (List.mem_reverse.mp member)
    exact digits c ((List.dropWhile_sublist _).subset (List.mem_reverse.mp inner))
  rw [read?, String.toList_ofList] at read
  cases found : Text.trimBy isMargin text with
  | nil =>
    rw [found] at read
    cases read
  | cons c more =>
    have digit : (Text.isDigit c || c = '.') = true := by simpa using trimmed c (by simp [found])
    have unsigned : splitSign (c :: more) = (false, c :: more) := by
      unfold splitSign
      split <;> first | rfl | (rename_i same; cases same; cases digit)
    simp only [found, unsigned, readWord?_numeral digit, Option.none_or, Option.map_eq_some_iff] at read
    obtain ⟨x, isMagnitude, rfl⟩ := read
    exact parts_readMagnitude?_ne isMagnitude

end Number

open Diagram Grammar

/-! ### Reading printed trees -/

/-- The token that a text is read as, on no line. -/
def Token.ofText : List Char → Token
  | [] => default
  | c :: body =>
    match readSegment .start c body with
    | .segment (.token t) _ _ => t.reline noLine
    | _ => default

/-- The text of a number and of nothing else. -/
def isNumberText (text : List Char) : Bool := text = "inf".toList || text.any (· ∈ ['.', '+', '-'])

/-- The expression with a head that is read as a token. Heads that are words of their own are read as names. -/
def Expr.ofOperator (op : Token) (parts : List Expr) : Expr :=
  match op.kind, parts with
  | .question, [test, yes, no] => .conditional test yes no
  | .identifier, [inner] => .grouping inner
  | .equal, [.var name _, value] => .assign name value none
  | .dot, [object, .var name _] => .get object name
  | .identifier, [object, .var name _, value] => .set object name value
  | .kwSuper, [.var method _] => .super op method none
  | .kwOr, [left, right] | .kwAnd, [left, right] => .logical left op right
  | _, [operand] => .unary op operand
  | _, [left, right] => .binary left op right
  | _, _ => .missing

def Expr.ofNode (head : List Char) (parts : List Expr) : Expr :=
  if head = "call".toList then .call (parts.headD .missing) (.ofText [')']) parts.tail else .ofOperator (.ofText head) parts

section
variable (numberOf : List Char → Float)

def Expr.ofAtom (text : List Char) : Expr :=
  if text.head? = some quotationMark then .literal (.string (String.ofList text.tail.dropLast))
  else if text = "nil".toList then .literal .nil
  else if text = "True".toList then .literal (.bool true)
  else if text = "False".toList then .literal (.bool false)
  else if text = "this".toList then .this (.ofText text) none
  else if isNumberText text then .literal (.number (numberOf text))
  else .var (.ofText text) none

mutual

/-- The expression that a tree is printed for, on no lines. -/
def Expr.ofTree : Tree → Expr
  | .atom text => .ofAtom numberOf text
  | .node head parts => .ofNode head (Expr.ofTrees parts)

def Expr.ofTrees : List Tree → List Expr
  | [] => []
  | t :: rest => Expr.ofTree t :: Expr.ofTrees rest

end

/-- The text is that of a tree that is printed for the expression. -/
def ReadsAs (text : String) (e : Expr) : Prop := ∃ t : Tree, t.Formed ∧ t.text = text.toList ∧ Expr.ofTree numberOf t = e

/-- What is needed of a token to read it back. -/
structure Token.Readable (t : Token) : Prop where
  legible : t.Legible
  again : t.kind ≠ .endOfFile → Token.ofText t.lexeme.toList = t.reline noLine
  paren : t.kind = .rightParen → Token.ofText ")".toList = t.reline noLine
  this : t.kind = .kwThis → Token.ofText "this".toList = t.reline noLine
  super : t.kind = .kwSuper → Token.ofText "super".toList = t.reline noLine
  name : t.kind = .identifier → Expr.ofAtom numberOf t.lexeme.toList = .var (t.reline noLine) none
  literal : ∀ value, literalOf? t = some value → Expr.ofAtom numberOf value.printed.toList = .literal value

end

section
variable {numberOf : List Char → Float} {texts : List String} {es : List Expr} {e : Expr} {t : Token} {ts : List Token}

theorem exists_trees (all : List.Forall₂ (ReadsAs numberOf) texts es) :
    ∃ parts, Tree.AllFormed parts ∧ Tree.texts parts = texts.map String.toList ∧ Expr.ofTrees numberOf parts = es := by
  induction all with
  | nil => exact ⟨[], trivial, rfl, rfl⟩
  | cons first _ ih =>
    obtain ⟨t, formed, same, reads⟩ := first
    obtain ⟨parts, allFormed, texts, readAll⟩ := ih
    refine ⟨t :: parts, ⟨formed, allFormed⟩, ?_, ?_⟩
    · rw [Tree.texts, same, texts, List.map_cons]
    · rw [Expr.ofTrees, reads, readAll]

theorem ReadsAs.node {head : String} (isWord : IsWord head.toList) (all : List.Forall₂ (ReadsAs numberOf) texts es)
    (same : Expr.ofNode head.toList es = e) : ReadsAs numberOf (parenthesized head texts) e := by
  obtain ⟨parts, formed, texts, reads⟩ := exists_trees all
  refine ⟨.node head.toList parts, ⟨isWord, formed⟩, ?_, ?_⟩
  · rw [toList_parenthesized, Tree.text, texts]
  · rw [Expr.ofTree, reads, same]

theorem Grammar.Each.reads (readable : Each (Token.Readable numberOf) (t :: ts)) (isName : t.kind = .identifier) :
    ReadsAs numberOf t.lexeme (.var (t.reline noLine) none) :=
  ⟨.atom _, .word (readable.head.legible.word (by rw [isName]; rfl)), rfl, readable.head.name isName⟩

theorem Expr.ofNode_operator {op : Token} (again : Token.ofText op.lexeme.toList = op.reline noLine)
    (noName : op.kind ≠ .identifier) (parts : List Expr) :
    Expr.ofNode op.lexeme.toList parts = .ofOperator (op.reline noLine) parts := by
  rw [Expr.ofNode, if_neg, again]
  intro same
  rw [same] at again
  exact noName (congrArg Token.kind again).symm

theorem Expr.ofOperator_joined {op : Token} {layer : Layer} (isOp : op.kind ∈ layer.operators) (left right : Expr) :
    Expr.ofOperator op [left, right] = layer.join left op right := by
  unfold Expr.ofOperator
  generalize op.kind = kind at isOp
  revert kind
  cases layer <;> simp [Layer.operators, Layer.join]

theorem Expr.ofOperator_signed {op : Token} (isSign : op.kind ∈ [TokenKind.bang, .minus]) (operand : Expr) :
    Expr.ofOperator op [operand] = .unary op operand := by
  unfold Expr.ofOperator
  generalize op.kind = kind at isSign
  revert kind
  simp

namespace Grammar

/-- The phrase is read back from what is printed for it. -/
def Phrase.ReadBack (numberOf : List Char → Float) : Phrase → Prop
  | .expression _ e => ReadsAs numberOf e.printed (e.reline noLine)
  | .arguments values => List.Forall₂ (ReadsAs numberOf) (Expr.printedAll values) (Expr.relineAll noLine values)
  | _ => True

/-- What is written with tokens of a source is read back from what is printed for it, by induction on how it is written. -/
theorem Derives.readBack {fits : Nat → Prop} {p : Phrase} (h : Derives fits p ts)
    (readable : Each (Token.Readable numberOf) ts) : p.ReadBack numberOf := by
  induction h with
  | inner _ _ part => exact part readable
  | @joined layer _ left right op _ _ _ isOp _ _ first second =>
    have plain : op.kind ≠ .endOfFile ∧ op.kind ≠ .identifier := by
      constructor <;> intro same <;> rw [same] at isOp <;> cases layer <;> exact absurd isOp (by decide)
    have own := readable.right.head
    have node : ReadsAs numberOf (parenthesized op.lexeme [left.printed, right.printed]) _ :=
      .node (own.legible.word (layer.isWord_of_mem_operators _ isOp))
        (.cons (first readable.left) (.cons (second readable.right.tail) .nil))
        ((Expr.ofNode_operator (own.again plain.1) plain.2 _).trans
          (Expr.ofOperator_joined (show (op.reline noLine).kind ∈ layer.operators from isOp) _ _))
    cases layer <;> exact node
  | conditional _ _ _ _ _ test yes no =>
    exact .node (.of rfl) (.cons (test readable.left) (.cons (yes readable.right.tail.left)
      (.cons (no readable.right.tail.right.tail) .nil))) rfl
  | assign isName _ _ value =>
    exact .node (.of rfl) (.cons (readable.reads isName) (.cons (value readable.tail.tail) .nil)) rfl
  | set _ isName _ _ _ target value =>
    exact .node (.of rfl) (.cons (target readable.left) (.cons (readable.right.tail.reads isName)
      (.cons (value readable.right.tail.tail.tail) .nil))) rfl
  | @signed op _ _ isSign _ part =>
    have plain : ∀ kind ∈ [TokenKind.bang, .minus], kind ≠ .endOfFile ∧ kind ≠ .identifier ∧ kind.isWord = true := by decide
    obtain ⟨noEnd, noName, isWord⟩ := plain _ isSign
    exact .node (readable.head.legible.word isWord) (.cons (part readable.tail) .nil)
      ((Expr.ofNode_operator (readable.head.again noEnd) noName _).trans
        (Expr.ofOperator_signed (show (op.reline noLine).kind ∈ _ from isSign) _))
  | call _ isRight _ _ _ target list =>
    exact .node (.of rfl) (.cons (target readable.left) (list readable.right.tail.left))
      (congrArg (Expr.call _ · _) (readable.right.tail.right.head.paren isRight))
  | get _ isName _ target =>
    exact .node (.of rfl) (.cons (target readable.left) (.cons (readable.right.tail.reads isName) .nil)) rfl
  | literal isLiteral =>
    exact ⟨.atom _, readable.head.legible.literal _ isLiteral, rfl, readable.head.literal _ isLiteral⟩
  | name isName => exact readable.reads isName
  | this isThis =>
    exact ⟨.atom "this".toList, .word (.of rfl), rfl, congrArg (Expr.this · none) (readable.head.this isThis)⟩
  | super isSuper _ isName =>
    exact .node (.of rfl) (.cons (readable.tail.tail.reads isName) .nil)
      (congrArg (Expr.super · _ none) (readable.head.super isSuper))
  | group _ _ _ part => exact .node (.of rfl) (.cons (part readable.tail.left) .nil) rfl
  | noArguments => exact .nil
  | oneArgument _ part => exact .cons (part readable) .nil
  | moreArguments _ _ _ part others => exact .cons (part readable.left) (others readable.right.tail)
  | _ => trivial

end Grammar

end

/-! ### Tokens of a source -/

section
variable {numberOf : List Char → Float} {t : Token} {rest : List Char}

theorem Token.ofText_of_formed (formed : (Segment.token t).Formed rest) :
    Token.ofText t.lexeme.toList = t.reline noLine := by
  obtain ⟨c, body, spelled, reads⟩ := rereads_of_formed formed
  obtain ⟨after, read⟩ := reads .start [] parted_nil
  rw [List.append_nil] at read
  rw [spelled, Token.ofText, read]
  rfl

theorem lexeme_of_formed (formed : (Segment.token t).Formed rest) :
    (t.kind = .rightParen → t.lexeme = ")") ∧ (t.kind = .kwThis → t.lexeme = "this") ∧
      (t.kind = .kwSuper → t.lexeme = "super") := by
  cases formed with
  | mark known =>
    unfold TokenKind.ofChar? at known
    split at known <;> cases known <;> simp
  | operator known | operatorEqual known =>
    unfold TokenKind.ofCharWithEqual? at known
    split at known <;> cases known <;> simp
  | slash | string | numeral => simp
  | word =>
    refine ⟨fun found => ?_, fun found => ?_, fun found => ?_⟩ <;>
      simpa [TokenKind.keywords] using TokenKind.ofWord_eq_keyword found (by decide)

theorem ofAtom_word {text : List Char} (isWord : IsWord text)
    (other : ∀ word ∈ ["nil", "True", "False", "this"], text ≠ word.toList) :
    Expr.ofAtom numberOf text =
      if isNumberText text then .literal (.number (numberOf text)) else .var (.ofText text) none := by
  have noString : text.head? ≠ some quotationMark := by
    intro first
    exact (isPlain_iff.mp (isWord.plain _ (List.mem_of_mem_head? first))).2.2.2 rfl
  simp only [List.forall_mem_cons] at other
  rw [Expr.ofAtom, if_neg noString, if_neg other.1, if_neg other.2.1, if_neg other.2.2.1, if_neg other.2.2.2.1]

theorem ofAtom_name {c : Char} {more : List Char} (all : ∀ d ∈ c :: more, Text.isAlphanumeric d = true)
    (isName : TokenKind.ofWord (String.ofList (c :: more)) = .identifier)
    (other : String.ofList (c :: more) ∉ ["True", "False", "inf"]) :
    Expr.ofAtom numberOf (c :: more) = .var (.ofText (c :: more)) none := by
  have spelled {word : String} (same : c :: more = word.toList) : String.ofList (c :: more) = word := by
    rw [same, String.ofList_toList]
  simp only [List.mem_cons, List.not_mem_nil, or_false, not_or] at other
  have noNumber : isNumberText (c :: more) = false := by
    rw [isNumberText, Bool.or_eq_false_iff, decide_eq_false_iff_not, List.any_eq_false]
    refine ⟨fun same => other.2.2 (spelled same), fun d member isMark => ?_⟩
    have noMark : d ∉ ['.', '+', '-'] := notMem_of_class rfl (all d member)
    exact noMark (of_decide_eq_true isMark)
  rw [ofAtom_word ⟨by simp, fun d member => isPlain_of_isAlphanumeric (all d member)⟩, noNumber]
  · rfl
  · have noKeyword (word : String) (keyword : TokenKind.ofWord word ≠ .identifier) : c :: more ≠ word.toList :=
      fun same => keyword (spelled same ▸ isName)
    simp only [List.forall_mem_cons]
    exact ⟨noKeyword "nil" (by decide), fun same => other.1 (spelled same), fun same => other.2.1 (spelled same),
      noKeyword "this" (by decide), by simp⟩

theorem ofAtom_number {x : Float} (isNumber : Number.parts x ≠ .notNumber) (known : numberOf (Number.text x).toList = x) :
    Expr.ofAtom numberOf (Number.text x).toList = .literal (.number x) := by
  have marked : isNumberText (Number.text x).toList = true := by
    rw [isNumberText, Bool.or_eq_true, decide_eq_true_eq, List.any_eq_true]
    obtain ⟨isNone, -⟩ | same | ⟨c, member, isMark⟩ := Number.exists_mark x
    · exact absurd isNone isNumber
    · exact .inl (congrArg String.toList same)
    · exact .inr ⟨c, member, decide_eq_true isMark⟩
  have other : ∀ word ∈ ["nil", "True", "False", "this"], (Number.text x).toList ≠ word.toList := by
    intro word member same
    have table : ["nil", "True", "False", "this"].all (fun word => !isNumberText word.toList) = true := by decide
    simpa [← same, marked] using List.all_eq_true.mp table word member
  rw [ofAtom_word (Number.isWord_text x) other, if_pos marked, known]

theorem readable_of_formed (formed : (Segment.token t).Formed rest)
    (names : t.kind = .identifier → t.lexeme ∉ ["True", "False", "inf"])
    (numbers : ∀ x, t.literal = .number x → numberOf (Number.text x).toList = x) : t.Readable numberOf := by
  have again := Token.ofText_of_formed formed
  have nil : Expr.ofAtom numberOf Literal.nil.printed.toList = .literal .nil := by
    simp [Literal.printed, Expr.ofAtom, quotationMark]
  obtain ⟨isParen, isThis, isSuper⟩ := lexeme_of_formed formed
  refine ⟨legible_of_formed formed, fun _ => again, fun kind => isParen kind ▸ again, fun kind => isThis kind ▸ again,
    fun kind => isSuper kind ▸ again, fun isName => ?_, fun value isLiteral => ?_⟩
  · rw [← again]
    have noOther : t.kind.isOther ≠ true := by rw [isName]; decide
    cases formed with
    | mark known => exact absurd (TokenKind.isOther_ofChar? known) noOther
    | operator known => exact absurd (TokenKind.isOther_ofCharWithEqual? known).1 noOther
    | operatorEqual known => exact absurd (TokenKind.isOther_ofCharWithEqual? known).2 noOther
    | slash | string | numeral => cases isName
    | word _ all =>
      rw [String.toList_ofList]
      exact ofAtom_name all isName (names isName)
  · obtain ⟨b, rfl⟩ | rfl | rfl := literalOf?_cases isLiteral
    · cases b <;> simp [Literal.printed, Literal.text, Expr.ofAtom, quotationMark]
    · exact nil
    · cases formed with
      | mark | operator | operatorEqual | slash | word => exact nil
      | string => simp [Literal.printed, Expr.ofAtom, quotationMark]
      | numeral digits known =>
        exact ofAtom_number (Number.parts_ne_of_numeral (fun c => digits.isDigit_or_point) known) (numbers _ rfl)

end

/-! ### Expressions of sources -/

/-- The numbers that tokens stand for. -/
def numbersOf (tokens : List Token) : Set Float := {x | ∃ t ∈ tokens, t.literal = .number x}

theorem readsAs_of_expression {numberOf : List Char → Float} {source : String} {position bound : Nat}
    {complaints : List Complaint} {e : Expr} {after : Grammar.State}
    (read : expression bound ⟨(scan source).tokens.drop position, complaints⟩ = .ok e after)
    (names : ∀ t ∈ (scan source).tokens, t.kind = .identifier → t.lexeme ∉ ["True", "False", "inf"])
    (numbers : ∀ t ∈ (scan source).tokens, ∀ x, t.literal = .number x → numberOf (Number.text x).toList = x) :
    ReadsAs numberOf e.printed (e.reline noLine) := by
  have readable : ∀ t ∈ (scan source).tokens, (t.kind = .identifier → t.lexeme ∉ ["True", "False", "inf"]) →
      (∀ x, t.literal = .number x → numberOf (Number.text x).toList = x) → t.Readable numberOf := by
    refine forall_mem_tokens (fun _ _ => readable_of_formed) (fun line _ _ => ?_) source
    exact ⟨legible_end line, fun noEnd => absurd rfl noEnd, fun kind => (by cases kind), fun kind => (by cases kind),
      fun kind => (by cases kind), fun kind => (by cases kind), fun _ none => (by cases none)⟩
  obtain ⟨ts, sub, derived⟩ := (yields_expression _).written read
  refine Derives.readBack derived fun t among => ?_
  have member := List.mem_of_mem_drop (sub among)
  exact readable t member (names t member) (numbers t member)

/-- Printed expressions are unambiguous: two expressions that are read anywhere in two sources are the same up to the lines
of their tokens if they are printed alike, as long as no name of the sources is spelled like a printed truth value or like
infinity, and different numbers of the sources have different texts. -/
theorem reline_eq_of_printed_eq {source source' : String} {position position' bound bound' : Nat}
    {complaints complaints' : List Complaint} {e e' : Expr} {after after' : Grammar.State}
    (read : expression bound ⟨(scan source).tokens.drop position, complaints⟩ = .ok e after)
    (read' : expression bound' ⟨(scan source').tokens.drop position', complaints'⟩ = .ok e' after')
    (names : ∀ t ∈ (scan source).tokens ++ (scan source').tokens, t.kind = .identifier → t.lexeme ∉ ["True", "False", "inf"])
    (numbers : Set.InjOn Number.text (numbersOf ((scan source).tokens ++ (scan source').tokens)))
    (same : e.printed = e'.printed) : e.reline noLine = e'.reline noLine := by
  let known := numbersOf ((scan source).tokens ++ (scan source').tokens)
  let numberOf : List Char → Float := fun text => Function.invFunOn Number.text known (String.ofList text)
  have inverse : ∀ x ∈ known, numberOf (Number.text x).toList = x := by
    intro x member
    simpa [numberOf] using numbers.leftInvOn_invFunOn member
  obtain ⟨t, formed, text, reads⟩ := readsAs_of_expression read (fun t among => names t (List.mem_append_left _ among))
    fun t among x isNumber => inverse x ⟨t, List.mem_append_left _ among, isNumber⟩
  obtain ⟨t', formed', text', reads'⟩ := readsAs_of_expression read' (fun t among => names t (List.mem_append_right _ among))
    fun t among x isNumber => inverse x ⟨t, List.mem_append_right _ among, isNumber⟩
  have trees : t = t' := tree_eq_of_text_eq formed formed' (by rw [text, text', same])
  rw [← reads, ← reads', trees]

/-- The tokens of `f(1,2)`, all but the first two on a line. -/
def splitCallTokens (line : Nat) : List Token :=
  [⟨.identifier, "f", .nil, 1⟩, ⟨.leftParen, "(", .nil, 1⟩, ⟨.number, "1", .number (Number.ofDecimal 1 0), line⟩,
   ⟨.comma, ",", .nil, line⟩, ⟨.number, "2", .number (Number.ofDecimal 2 0), line⟩, ⟨.rightParen, ")", .nil, line⟩,
   ⟨.endOfFile, "", .nil, line⟩]

def splitCall (line : Nat) : Expr :=
  .call (.var ⟨.identifier, "f", .nil, 1⟩ none) ⟨.rightParen, ")", .nil, line⟩
    [.literal (.number (Number.ofDecimal 1 0)), .literal (.number (Number.ofDecimal 2 0))]

theorem reline_eq_of_printed_eq_call :
    expression 5 ⟨(scan "f(1,2)").tokens.drop 0, []⟩ = .ok (splitCall 1) ⟨(splitCallTokens 1).drop 6, []⟩ ∧
      expression 5 ⟨(scan "f(\n1,2)").tokens.drop 0, []⟩ = .ok (splitCall 2) ⟨(splitCallTokens 2).drop 6, []⟩ ∧
      (splitCall 1).reline noLine = (splitCall 2).reline noLine := by
  have tokens : (scan "f(1,2)").tokens = splitCallTokens 1 := by
    rw [← scanSteps_eq]
    rfl
  have tokens' : (scan "f(\n1,2)").tokens = splitCallTokens 2 := by
    rw [← scanSteps_eq]
    rfl
  have read : expression 5 ⟨(scan "f(1,2)").tokens.drop 0, []⟩ = .ok (splitCall 1) ⟨(splitCallTokens 1).drop 6, []⟩ := by
    rw [tokens]
    rfl
  have read' : expression 5 ⟨(scan "f(\n1,2)").tokens.drop 0, []⟩ = .ok (splitCall 2) ⟨(splitCallTokens 2).drop 6, []⟩ := by
    rw [tokens']
    rfl
  refine ⟨read, read', reline_eq_of_printed_eq read read' ?_ ?_ rfl⟩
  · rw [tokens, tokens']
    simp [splitCallTokens]
  · have known : numbersOf (splitCallTokens 1 ++ splitCallTokens 2) = {Number.ofDecimal 1 0, Number.ofDecimal 2 0} := by
      ext x
      simp [numbersOf, splitCallTokens, eq_comm, or_comm, or_left_comm]
    have differ : Number.text (Number.ofDecimal 1 0) ≠ Number.text (Number.ofDecimal 2 0) := by decide +kernel
    rw [tokens, tokens', known]
    simp [differ]

end LoxLang
