import LoxLang.Proofs.PrintedTrees
import LoxLang.Proofs.Segmentation
import LoxLang.Proofs.Trees

/-!
The texts that expressions and statements are printed as. Names and operators of a source are words, the text of a number
is one, and a string is closed by its next quotation mark. So whatever is read from a source is printed as the text of a
tree, and the texts of several can be told apart when they are joined by blanks.
-/

namespace LoxLang

variable {c : Char} {t : Token} {ts : List Token}

open Diagram Grammar

/-- The text of a tree whose heads are words, and whose atoms are words or strings. -/
def IsPrinted (text : String) : Prop := ∃ t : Tree, t.Formed ∧ t.text = text.toList

def AllPrinted : List String → Prop
  | [] => True
  | text :: rest => IsPrinted text ∧ AllPrinted rest

variable {texts more : List String}

theorem allPrinted_iff : AllPrinted texts ↔ ∀ text ∈ texts, IsPrinted text := by
  induction texts with
  | nil => simp [AllPrinted]
  | cons _ _ ih => simp [AllPrinted, ih]

theorem AllPrinted.append (first : AllPrinted texts) (second : AllPrinted more) : AllPrinted (texts ++ more) := by
  rw [allPrinted_iff] at *
  exact List.forall_mem_append.mpr ⟨first, second⟩

theorem AllPrinted.exists_trees (all : AllPrinted texts) :
    ∃ parts, Tree.AllFormed parts ∧ Tree.texts parts = texts.map String.toList := by
  induction texts with
  | nil => exact ⟨[], trivial, rfl⟩
  | cons _ rest ih =>
    obtain ⟨⟨t, formed, same⟩, others⟩ := all
    obtain ⟨parts, allFormed, rest⟩ := ih others
    exact ⟨t :: parts, ⟨formed, allFormed⟩, by rw [Tree.texts, same, rest, List.map_cons]⟩

theorem IsPrinted.atom {text : String} (isAtom : IsAtom text.toList) : IsPrinted text := ⟨.atom _, isAtom, rfl⟩

theorem IsPrinted.node {head : String} (isWord : IsWord head.toList) (all : AllPrinted texts) :
    IsPrinted (parenthesized head texts) := by
  obtain ⟨parts, formed, same⟩ := all.exists_trees
  exact ⟨.node head.toList parts, ⟨isWord, formed⟩, by rw [toList_parenthesized, Tree.text, same]⟩

theorem printed_function (name : Token) (params : Option (List Token)) (body : List Stmt) :
    FunDecl.printed ⟨name, params, body⟩ = parenthesized "fun" (name.lexeme :: Stmt.printedAll body) := by
  rw [FunDecl.printed, ← String.toList_inj, toList_parenthesized, toList_parenthesized]
  simp

theorem printed_class (name : Token) (base : Option NameRef) (methods own : List FunDecl)
    (traits : List NameRef) : Stmt.printed (.classDef ⟨name, base, methods, own, traits⟩) =
      parenthesized "class" (name.lexeme :: (base.elim [] fun base => ["inherits_from", base.name.lexeme]) ++
        FunDecl.printedAll methods ++ (FunDecl.printedAll own).map fun method => parenthesized "class" [method]) := by
  cases base <;> rfl

theorem Stmt.printedAll_eq_map (body : List Stmt) : Stmt.printedAll body = body.map Stmt.printed := by
  induction body with
  | nil => rfl
  | cons _ _ ih => rw [Stmt.printedAll, ih, List.map_cons]

theorem FunDecl.printedAll_eq_map (fs : List FunDecl) : FunDecl.printedAll fs = fs.map FunDecl.printed := by
  induction fs with
  | nil => rfl
  | cons _ _ ih => rw [FunDecl.printedAll, ih, List.map_cons]

/-! ### Characters of words -/

theorem Text.inRanges_disjoint {table other : List Text.CharRange}
    (apart : ∀ r ∈ table, ∀ s ∈ other, r.2 < s.1 ∨ s.2 < r.1) (inside : Text.inRanges table c = true) :
    Text.inRanges other c = false := by
  obtain ⟨r, member, within⟩ := List.any_eq_true.mp inside
  rw [Text.inRanges, List.any_eq_false]
  intro s among
  have := apart r member s among
  simp only [Bool.and_eq_true, decide_eq_true_eq] at within ⊢
  omega

theorem Diagram.isPlain_of_isAlphanumeric (letter : Text.isAlphanumeric c = true) : isPlain c = true := by
  by_cases ascii : c.toNat < 128
  · have table : ∀ n < 128, Text.isAlphanumeric (Char.ofNat n) = true → isPlain (Char.ofNat n) = true := by decide +kernel
    exact Char.ofNat_toNat c ▸ table c.toNat ascii (by rwa [Char.ofNat_toNat])
  · have beyond : Text.isAscii c = false := decide_eq_false ascii
    have noBlank : Text.isBlank c = false := by
      rw [Text.isAlphanumeric, if_neg (by simp [beyond])] at letter
      rw [Text.isBlank, if_neg (by simp [beyond])]
      exact Text.inRanges_disjoint (by decide +kernel) letter
    refine isPlain_iff.mpr ⟨noBlank, ?_, ?_, ?_⟩ <;> (rintro rfl; exact ascii (by decide))

namespace Number

abbrev AllPlain (text : String) : Prop := text.toList.all isPlain = true

theorem AllPlain.append {a b : String} (first : AllPlain a) (second : AllPlain b) : AllPlain (a ++ b) := by
  rw [AllPlain, String.toList_append, List.all_append, first, second]
  rfl

theorem allPlain_ofList {text : List Char} (each : ∀ c ∈ text, isPlain c = true) : AllPlain (String.ofList text) := by
  rwa [AllPlain, String.toList_ofList, List.all_eq_true]

theorem isPlain_of_mem_toDigits {n : Nat} (member : c ∈ Nat.toDigits 10 n) : isPlain c = true := by
  have digit := Nat.isDigit_of_mem_toDigits (by decide) (Nat.le_refl _) member
  have small : c.toNat < 128 := by
    simp only [Char.isDigit, ge_iff_le, Bool.and_eq_true, decide_eq_true_eq, UInt32.le_iff_toNat_le] at digit
    exact Nat.lt_of_le_of_lt digit.2 (by decide)
  exact isPlain_of_isAlphanumeric (by simp [Text.isAlphanumeric, Text.isAscii, small, Char.isAlphanum, digit])

theorem isPlain_of_mem_zeros {count : Nat} {text : List Char} (each : ∀ c ∈ text, isPlain c = true) :
    ∀ c ∈ List.replicate count '0' ++ text, isPlain c = true := by
  intro c member
  obtain zero | other := List.mem_append.mp member
  · rw [List.eq_of_mem_replicate zero]
    rfl
  · exact each c other

theorem allPlain_positional {digits : List Char} (each : ∀ c ∈ digits, isPlain c = true) (before : Int) :
    AllPlain (positional digits before) := by
  unfold positional
  split
  · exact .append (by decide) (allPlain_ofList (isPlain_of_mem_zeros each))
  · refine .append (.append (allPlain_ofList fun c member => ?_) (by decide)) ?_
    · obtain digit | zero := List.mem_append.mp member
      · exact each c (List.mem_of_mem_take digit)
      · rw [List.eq_of_mem_replicate zero]
        rfl
    · split
      · decide
      · exact allPlain_ofList fun c member => each c (List.mem_of_mem_drop member)

theorem allPlain_scientific {digits : List Char} (each : ∀ c ∈ digits, isPlain c = true) (width : Nat) (exponent : Int) :
    AllPlain (scientific width digits exponent) := by
  have fraction : AllPlain (if (digits.drop 1).isEmpty then "" else "." ++ String.ofList (digits.drop 1)) := by
    split
    · decide
    · exact .append (by decide) (allPlain_ofList fun c member => each c (List.mem_of_mem_drop member))
  have sign : AllPlain (if exponent < 0 then "-" else "+") := by split <;> decide
  have power : AllPlain (padded width exponent.natAbs) :=
    allPlain_ofList (isPlain_of_mem_zeros fun c => isPlain_of_mem_toDigits)
  exact ((((allPlain_ofList fun c member => each c (List.mem_of_mem_take member)).append fraction).append
    (by decide)).append sign).append power

theorem Decimal.allPlain_text (l : Layout) (d : Decimal) : AllPlain (d.text l) := by
  have digits : ∀ c ∈ ((Nat.toDigits 10 d.digits).reverse.dropWhile (· == '0')).reverse, isPlain c = true := by
    intro c member
    exact isPlain_of_mem_toDigits (by simpa using (List.dropWhile_sublist _).subset (List.mem_reverse.mp member))
  unfold Decimal.text
  dsimp only
  split
  · exact allPlain_scientific digits _ _
  · exact allPlain_positional digits _

theorem allPlain_text (x : Float) : AllPlain (text x) := by
  unfold text
  split
  · decide
  · split <;> decide
  · refine .append (by split <;> decide) ?_
    split
    · decide
    · exact Decimal.allPlain_text _ _

theorem Decimal.exists_mark (l : Layout) (d : Decimal) : ∃ c ∈ (d.text l).toList, c ∈ ['.', '+', '-'] := by
  unfold Decimal.text
  dsimp only
  split
  · by_cases negative : ((Nat.toDigits 10 d.digits).length : Int) + d.exponent - 1 < 0
    · exact ⟨'-', by simp [scientific, negative], by simp⟩
    · exact ⟨'+', by simp [scientific, negative], by simp⟩
  · refine ⟨'.', ?_, by simp⟩
    unfold positional
    split <;> simp

/-- A number is a word for no number or infinity, or there is a point or a sign in its text. -/
theorem exists_mark (x : Float) :
    (parts x = .notNumber ∧ text x = "nan") ∨ text x = "inf" ∨ ∃ c ∈ (text x).toList, c ∈ ['.', '+', '-'] := by
  unfold text
  split
  · exact .inl ⟨‹_›, rfl⟩
  · split
    · exact .inr (.inr ⟨'-', by simp, by simp⟩)
    · exact .inr (.inl rfl)
  · rename_i negative mantissa exponent _
    obtain ⟨c, member, isMark⟩ : ∃ c ∈ (if mantissa = 0 then "0.0" else
        (shortest ⟨mantissa, exponent⟩).text layout).toList, c ∈ ['.', '+', '-'] := by
      split
      · exact ⟨'.', by simp, by simp⟩
      · exact Decimal.exists_mark _ _
    exact .inr (.inr ⟨c, by simp [member], isMark⟩)

theorem isWord_text (x : Float) : IsWord (text x).toList := by
  refine ⟨?_, List.all_eq_true.mp (allPlain_text x)⟩
  obtain ⟨-, same⟩ | same | ⟨c, member, -⟩ := exists_mark x
  · simp [same]
  · simp [same]
  · exact List.ne_nil_of_mem member

end Number

/-! ### What is read from a source -/

/-- The kinds of tokens whose texts are words. -/
def TokenKind.isWord : TokenKind → Bool
  | string | number | leftParen | rightParen | endOfFile => false
  | _ => true

/-- Names and operators are words, and literals are printed as atoms. -/
structure Token.Legible (t : Token) : Prop where
  word : t.kind.isWord = true → IsWord t.lexeme.toList
  literal : ∀ value, literalOf? t = some value → IsAtom value.printed.toList

theorem literalOf?_cases {value : Literal} (isLiteral : literalOf? t = some value) :
    (∃ b, value = .bool b) ∨ value = .nil ∨ value = t.literal := by
  unfold literalOf? at isLiteral
  split at isLiteral <;> cases isLiteral <;> simp

theorem isAtom_of_literalOf? (own : IsAtom t.literal.printed.toList) {value : Literal}
    (isLiteral : literalOf? t = some value) : IsAtom value.printed.toList := by
  obtain ⟨b, rfl⟩ | rfl | rfl := literalOf?_cases isLiteral
  · cases b <;> exact .word (.of rfl)
  · exact .word (.of rfl)
  · exact own

theorem isWord_of_ofChar? {kind : TokenKind} (known : TokenKind.ofChar? c = some kind) (isWord : kind.isWord = true) :
    IsWord [c] := by
  unfold TokenKind.ofChar? at known
  split at known <;> cases known <;> first | exact .of rfl | cases isWord

theorem isWord_of_ofCharWithEqual? {kinds : TokenKind × TokenKind} (known : TokenKind.ofCharWithEqual? c = some kinds) :
    IsWord [c] ∧ IsWord [c, '='] := by
  unfold TokenKind.ofCharWithEqual? at known
  split at known <;> cases known <;> exact ⟨.of rfl, .of rfl⟩

theorem legible_of_formed {rest : List Char} (formed : (Segment.token t).Formed rest) : t.Legible := by
  have nil : IsAtom Literal.nil.printed.toList := .word (.of rfl)
  cases formed with
  | mark known =>
    exact ⟨fun isWord => by simpa using isWord_of_ofChar? known isWord, fun _ => isAtom_of_literalOf? nil⟩
  | operator known =>
    exact ⟨fun _ => by simpa using (isWord_of_ofCharWithEqual? known).1, fun _ => isAtom_of_literalOf? nil⟩
  | operatorEqual known =>
    exact ⟨fun _ => by simpa using (isWord_of_ofCharWithEqual? known).2, fun _ => isAtom_of_literalOf? nil⟩
  | slash =>
    have isWord : IsWord ['/'] := .of rfl
    exact ⟨fun _ => by simpa using isWord, fun _ => isAtom_of_literalOf? nil⟩
  | @string body _ _ inside =>
    refine ⟨fun isWord => (by cases isWord), fun _ => isAtom_of_literalOf? ?_⟩
    have printed : (Literal.string (String.ofList body)).printed.toList = quotationMark :: (body ++ [quotationMark]) := by
      simp [Literal.printed, quotationMark]
    exact printed ▸ .quoted inside
  | numeral =>
    refine ⟨fun isWord => (by cases isWord), fun _ => isAtom_of_literalOf? ?_⟩
    exact .word (Number.isWord_text _)
  | @word c more _ _ _ all _ =>
    refine ⟨fun _ => ⟨by simp, fun d member => isPlain_of_isAlphanumeric (all d ?_)⟩, fun _ => isAtom_of_literalOf? nil⟩
    simpa using member

theorem legible_end (line : Nat) : Token.Legible ⟨.endOfFile, "", .nil, line⟩ :=
  ⟨fun isWord => (by cases isWord), fun _ isLiteral => by cases isLiteral⟩

theorem legible_of_mem_tokens {source : String} : ∀ t ∈ (scan source).tokens, t.Legible :=
  forall_mem_tokens (fun _ _ => legible_of_formed) legible_end source

namespace Grammar

/-- Everything in the phrase is printed as the text of a tree. -/
def Phrase.Printed : Phrase → Prop
  | .expression _ e => IsPrinted e.printed
  | .arguments values => AllPrinted (Expr.printedAll values)
  | .optional e => ∀ value ∈ e, IsPrinted value.printed
  | .definition s | .statement s _ | .declaration s => IsPrinted s.printed
  | .initializer s => ∀ first ∈ s, IsPrinted first.printed
  | .declarations body => AllPrinted (Stmt.printedAll body)
  | .function _ f => IsPrinted f.printed
  | .members list => ∀ m ∈ list, IsPrinted m.2.printed
  | .methods list => AllPrinted (FunDecl.printedAll list)

theorem Each.name (legible : Each Token.Legible (t :: ts)) (isName : t.kind = .identifier) :
    IsPrinted t.lexeme := .atom (.word (legible.head.word (by rw [isName]; rfl)))

theorem Layer.isWord_of_mem_operators (layer : Layer) : ∀ kind ∈ layer.operators, kind.isWord = true := by
  cases layer <;> decide

theorem Names.printed {names : List Token} (h : Names names ts) (legible : Each Token.Legible ts) :
    ∀ name ∈ names, IsPrinted name.lexeme := by
  induction h with
  | one isName => simpa using legible.name isName
  | more isName _ _ ih => exact List.forall_mem_cons.mpr ⟨legible.name isName, ih legible.tail.tail⟩

theorem Extends.printed {base : Option NameRef} (h : Extends base ts) (legible : Each Token.Legible ts) :
    AllPrinted (base.elim [] fun base => ["inherits_from", base.name.lexeme]) := by
  cases h with
  | nothing => exact trivial
  | base _ isName => exact ⟨.atom (.word (.of rfl)), legible.tail.name isName, trivial⟩

theorem Includes.printed {traits : List NameRef} (h : Includes traits ts) (legible : Each Token.Legible ts) :
    AllPrinted (if traits.isEmpty then [] else "with" :: traits.map (·.name.lexeme)) := by
  cases h with
  | nothing => exact trivial
  | traits _ list =>
    split
    · exact trivial
    · exact ⟨.atom (.word (.of rfl)), allPrinted_iff.mpr (by simpa using list.printed legible.tail)⟩

theorem allPrinted_members {list : List (Bool × FunDecl)} (each : ∀ m ∈ list, IsPrinted m.2.printed)
    (keep : Bool × FunDecl → Bool) : AllPrinted (FunDecl.printedAll ((list.filter keep).map Prod.snd)) := by
  rw [FunDecl.printedAll_eq_map, List.map_map, allPrinted_iff]
  intro text member
  obtain ⟨m, kept, rfl⟩ := List.mem_map.mp member
  exact each m (List.mem_filter.mp kept).1

theorem allPrinted_wrapped (all : AllPrinted texts) :
    AllPrinted (texts.map fun method => parenthesized "class" [method]) := by
  induction texts with
  | nil => exact trivial
  | cons _ _ ih => exact ⟨.node (.of rfl) ⟨all.1, trivial⟩, ih all.2⟩

/-- What is written with tokens of a source is printed as the text of a tree, by induction on how it is written. -/
theorem Derives.printed {fits : Nat → Prop} {p : Phrase} (h : Derives fits p ts) (legible : Each Token.Legible ts) :
    p.Printed := by
  induction h with
  | inner _ _ part => exact part legible
  | @joined layer _ _ _ _ _ _ _ isOp _ _ first second =>
    have operands : AllPrinted [_, _] := ⟨first legible.left, second legible.right.tail, trivial⟩
    have joined := IsPrinted.node (legible.right.head.word (layer.isWord_of_mem_operators _ isOp)) operands
    cases layer <;> exact joined
  | conditional _ _ _ _ _ test yes no =>
    exact .node (.of rfl) ⟨test legible.left, yes legible.right.tail.left, no legible.right.tail.right.tail, trivial⟩
  | assign isName _ _ value => exact .node (.of rfl) ⟨legible.name isName, value legible.tail.tail, trivial⟩
  | set _ isName _ _ _ target value =>
    exact .node (.of rfl)
      ⟨target legible.left, legible.right.tail.name isName, value legible.right.tail.tail.tail, trivial⟩
  | signed isSign _ part =>
    have signs : ∀ kind ∈ [TokenKind.bang, .minus], kind.isWord = true := by decide
    exact .node (legible.head.word (signs _ isSign)) ⟨part legible.tail, trivial⟩
  | call _ _ _ _ _ target list => exact .node (.of rfl) ⟨target legible.left, list legible.right.tail.left⟩
  | get _ isName _ target => exact .node (.of rfl) ⟨target legible.left, legible.right.tail.name isName, trivial⟩
  | literal isLiteral => exact .atom (legible.head.literal _ isLiteral)
  | name isName => exact legible.name isName
  | this => exact (.atom (.word (.of rfl)) : IsPrinted "this")
  | super _ _ isName => exact .node (.of rfl) ⟨legible.tail.tail.name isName, trivial⟩
  | group _ _ _ part => exact .node (.of rfl) ⟨part legible.tail.left, trivial⟩
  | noArguments | noDeclarations | noMethods => exact trivial
  | oneArgument _ part => exact ⟨part legible, trivial⟩
  | moreArguments _ _ _ part others => exact ⟨part legible.left, others legible.right.tail⟩
  | absent | noInitializer => rintro _ ⟨⟩
  | present _ part => rintro _ ⟨⟩; exact part legible
  | unset isName => exact .node (.of rfl) ⟨legible.name isName, .atom (.word (.of rfl)), trivial⟩
  | valued isName _ _ _ part => exact .node (.of rfl) ⟨legible.name isName, part legible.tail.tail.left, trivial⟩
  | newVariable _ _ part => rintro _ ⟨⟩; exact part legible.tail
  | firstValue _ _ part => rintro _ ⟨⟩; exact .node (.of rfl) ⟨part legible.left, trivial⟩
  | evaluation _ _ part => exact .node (.of rfl) ⟨part legible.left, trivial⟩
  | print _ _ _ part => exact .node (.of rfl) ⟨part legible.tail.left, trivial⟩
  | @returned _ _ value _ _ _ _ part =>
    have held := part legible.tail.left
    cases value with
    | none => exact .node (.of rfl) trivial
    | some value => exact .node (.of rfl) ⟨held value rfl, trivial⟩
  | broken => exact .node (.of rfl) trivial
  | block _ _ _ part => exact .node (.of rfl) (part legible.tail.left)
  | ifThen _ _ _ _ _ test yes | «while» _ _ _ _ _ test yes =>
    exact .node (.of rfl) ⟨test legible.tail.tail.left, yes legible.tail.tail.right.tail, trivial⟩
  | ifElse _ _ _ _ _ _ _ test yes no =>
    have behind := legible.tail.tail.right.tail
    exact .node (.of rfl) ⟨test legible.tail.tail.left, yes behind.left, no behind.right.tail, trivial⟩
  | «for» _ _ _ _ _ _ _ _ start test step body =>
    have behind := legible.tail.tail.right
    exact forLoop_of (P := fun s => IsPrinted s.printed) (start legible.tail.tail.left) (test behind.left)
      (step behind.right.tail.left) (body behind.right.tail.right.tail) (.atom (.word (.of rfl)))
      (fun test body => .node (.of rfl) ⟨test, body, trivial⟩)
      (fun body step => .node (.of rfl) ⟨body, .node (.of rfl) ⟨step, trivial⟩, trivial⟩)
      fun start loop => .node (.of rfl) ⟨start, loop, trivial⟩
  | classDef _ isName _ _ extension _ _ body =>
    have list := body legible.tail.tail.right.right.tail.left
    have opening : AllPrinted (_ :: _) := ⟨legible.tail.name isName, extension.printed legible.tail.tail.left⟩
    rw [Phrase.Printed, printed_class]
    exact .node (.of rfl)
      ((opening.append (allPrinted_members list _)).append (allPrinted_wrapped (allPrinted_members list _)))
  | traitDef _ isName _ _ inclusion _ body =>
    have opening : AllPrinted (_ :: _) := ⟨legible.tail.name isName, inclusion.printed legible.tail.tail.left⟩
    exact .node (.of rfl) (opening.append (body legible.tail.tail.right.tail.left))
  | functionDef _ _ part | varDef _ _ part => exact part legible.tail
  | plain _ part => exact part legible
  | moreDeclarations _ _ first others | method _ _ first others => exact ⟨first legible.left, others legible.right⟩
  | function isName _ _ _ _ part =>
    rw [Phrase.Printed, printed_function]
    exact .node (.of rfl) ⟨legible.name isName, part legible.tail.right.tail.left⟩
  | noMembers => exact fun _ member => absurd member List.not_mem_nil
  | ownMember _ _ _ first others =>
    exact List.forall_mem_cons.mpr ⟨first legible.tail.left, others legible.tail.right⟩
  | member _ _ first others => exact List.forall_mem_cons.mpr ⟨first legible.left, others legible.right⟩

end Grammar

/-! ### Splitting what was joined -/

/-- What is printed for a statement of a program, for a statement or an expression that is read anywhere in a source, or
for a name of a source. -/
inductive IsPart : String → Prop where
  | program {source : String} {program : List Stmt} {s : Stmt}
    (parsed : (parseProgram (scan source).tokens).result = .ok program) (member : s ∈ program) : IsPart s.printed
  | statement {source : String} {position bound : Nat} {complaints : List Complaint} {s : Stmt} {after : State}
    (read : declaration bound ⟨(scan source).tokens.drop position, complaints⟩ = .ok (some s) after) : IsPart s.printed
  | expression {source : String} {position bound : Nat} {complaints : List Complaint} {e : Expr} {after : State}
    (read : expression bound ⟨(scan source).tokens.drop position, complaints⟩ = .ok e after) : IsPart e.printed
  | name {source : String} {t : Token} (member : t ∈ (scan source).tokens) (isName : t.kind = .identifier) :
    IsPart t.lexeme

theorem IsPart.isPrinted {part : String} (isPart : IsPart part) : IsPrinted part := by
  cases isPart with
  | program parsed member =>
    obtain ⟨ts, sub, derived⟩ := derives_of_parseProgram parsed
    have all := derived.printed fun t among => legible_of_mem_tokens t (sub among)
    rw [Phrase.Printed, Stmt.printedAll_eq_map, allPrinted_iff] at all
    exact all _ (List.mem_map_of_mem member)
  | statement read =>
    obtain ⟨ts, sub, derived⟩ := (yields_statement_declaration _).2.written read
    exact Derives.printed derived fun t among => legible_of_mem_tokens t (List.mem_of_mem_drop (sub among))
  | expression read =>
    obtain ⟨ts, sub, derived⟩ := (yields_expression _).written read
    exact Derives.printed derived fun t among => legible_of_mem_tokens t (List.mem_of_mem_drop (sub among))
  | name member isName => exact .atom (.word ((legible_of_mem_tokens _ member).word (by rw [isName]; rfl)))

/-- Splitting undoes joining: parts that are joined by blanks are what the text is split into. -/
theorem split_joined {parts : List String} (each : ∀ part ∈ parts, IsPart part) :
    (split (" ".intercalate parts).toList).map String.ofList = parts := by
  have all : AllPrinted parts := allPrinted_iff.mpr fun part member => (each part member).isPrinted
  obtain ⟨trees, formed, same⟩ := all.exists_trees
  have joined := split_texts formed
  rw [same] at joined
  rw [String.toList_intercalate, show " ".toList = [' '] from rfl, joined, List.map_map]
  simp

def callExpression : Expr :=
  .call (.var ⟨.identifier, "f", .nil, 1⟩ none) ⟨.rightParen, ")", .nil, 1⟩ [.literal (.string "a (b")]

/-- A name, a statement and an expression of `print f("a (b");`. -/
def callParts : List String := ["f", (Stmt.print callExpression).printed, callExpression.printed]

theorem split_joined_call :
    (∀ part ∈ callParts, IsPart part) ∧ (split (" ".intercalate callParts).toList).map String.ofList = callParts := by
  have tokens : (scan "print f(\"a (b\");").tokens = [⟨.kwPrint, "print", .nil, 1⟩, ⟨.identifier, "f", .nil, 1⟩,
      ⟨.leftParen, "(", .nil, 1⟩, ⟨.string, "\"a (b\"", .string "a (b", 1⟩, ⟨.rightParen, ")", .nil, 1⟩,
      ⟨.semicolon, ";", .nil, 1⟩, ⟨.endOfFile, "", .nil, 1⟩] := by cbv
  have name : ⟨.identifier, "f", .nil, 1⟩ ∈ (scan "print f(\"a (b\");").tokens := by simp [tokens]
  have parsed : (parseProgram (scan "print f(\"a (b\");").tokens).result = .ok [.print callExpression] := by
    rw [tokens]
    rfl
  have read : ∃ after, expression 7 ⟨(scan "print f(\"a (b\");").tokens.drop 1, []⟩ = .ok callExpression after := by
    rw [tokens]
    exact ⟨_, rfl⟩
  have each : ∀ part ∈ callParts, IsPart part := by
    simpa [callParts] using ⟨.name name rfl, .program parsed List.mem_cons_self, .expression read.choose_spec⟩
  exact ⟨each, split_joined each⟩

end LoxLang
