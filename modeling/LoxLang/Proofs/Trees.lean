import LoxLang.Proofs.Soundness

/-!
The shape of the trees that tokens are read as. Branches and loop bodies are statements and no declarations, the traits
of a class are not resolved, and the names that are declared are the identifiers of the source. All of this stays so
when scopes are resolved.
-/

namespace LoxLang

/-- The expressions that an expression is made of. -/
def Expr.operands : Expr → List Expr
  | .binary left _ right | .logical left _ right => [left, right]
  | .unary _ operand => [operand]
  | .conditional test yes no => [test, yes, no]
  | .grouping inner => [inner]
  | .assign _ value _ => [value]
  | .call callee _ values => callee :: values
  | .get object _ => [object]
  | .set object _ value => [object, value]
  | .literal _ | .var .. | .this .. | .super .. | .missing => []

/-- A statement that is no declaration. -/
def Stmt.isPlain : Stmt → Bool
  | .var .. | .function .. | .classDef .. | .traitDef .. => false
  | _ => true

/-- A name on the first line of a source. -/
def Token.named (name : String) : Token := ⟨.identifier, name, .nil, 1⟩

/-- A name of the source. -/
def Token.Names (source : Token → Prop) (name : Token) : Prop := name.kind = .identifier ∧ source name

mutual

/-- The expression is whole, and the names that it assigns to and its keywords `this` and `super` are those of the
source. -/
def Expr.Parsed (source : Token → Prop) : Expr → Prop
  | .binary left _ right | .logical left _ right => left.Parsed source ∧ right.Parsed source
  | .unary _ operand => operand.Parsed source
  | .conditional test yes no =>
    test.Parsed source ∧ yes.Parsed source ∧ no.Parsed source
  | .grouping inner => inner.Parsed source
  | .assign name value _ => name.Names source ∧ value.Parsed source
  | .call callee _ arguments => callee.Parsed source ∧ Expr.AllParsed source arguments
  | .get object _ => object.Parsed source
  | .set object _ value => object.Parsed source ∧ value.Parsed source
  | .this keyword _ => keyword.kind = .kwThis ∧ source keyword
  | .super keyword _ _ => keyword.kind = .kwSuper ∧ source keyword
  | .literal _ | .var .. => True
  | .missing => False

def Expr.AllParsed (source : Token → Prop) : List Expr → Prop
  | [] => True
  | e :: rest => e.Parsed source ∧ Expr.AllParsed source rest

end

def Expr.OptionParsed (source : Token → Prop) (e : Option Expr) : Prop := ∀ value, e = some value → value.Parsed source

mutual

/-- The statement has the shape of one that was read. -/
def Stmt.Parsed (source : Token → Prop) : Stmt → Prop
  | .expression value | .print value => value.Parsed source
  | .var name initializer => name.Names source ∧ Expr.OptionParsed source initializer
  | .block body => Stmt.AllParsed source body
  | .ifElse test yes none =>
    test.Parsed source ∧ yes.isPlain = true ∧ yes.Parsed source
  | .ifElse test yes (some no) =>
    test.Parsed source ∧ (yes.isPlain = true ∧ yes.Parsed source) ∧ no.isPlain = true ∧ no.Parsed source
  | .whileLoop test body => test.Parsed source ∧ body.isPlain = true ∧ body.Parsed source
  | .breakLoop => True
  | .returnValue _ value => Expr.OptionParsed source value
  | .function decl => decl.Parsed source
  | .classDef ⟨name, _, methods, own, traits⟩ =>
    name.Names source ∧ (∀ ref ∈ traits, ref.depth = none) ∧ FunDecl.AllParsed source methods ∧
      FunDecl.AllParsed source own
  | .traitDef ⟨name, _, methods⟩ => name.Names source ∧ FunDecl.AllParsed source methods
  | .missing => False

def Stmt.AllParsed (source : Token → Prop) : List Stmt → Prop
  | [] => True
  | s :: rest => s.Parsed source ∧ Stmt.AllParsed source rest

def FunDecl.Parsed (source : Token → Prop) : FunDecl → Prop
  | ⟨name, params, body⟩ =>
    name.Names source ∧ (∀ param ∈ params.getD [], param.Names source) ∧ Stmt.AllParsed source body

def FunDecl.AllParsed (source : Token → Prop) : List FunDecl → Prop
  | [] => True
  | f :: rest => f.Parsed source ∧ FunDecl.AllParsed source rest

end

mutual

/-- No class of the statement has methods of its own. -/
def Stmt.NoClassMethods : Stmt → Prop
  | .block body => Stmt.AllNoClassMethods body
  | .ifElse _ yes none => yes.NoClassMethods
  | .ifElse _ yes (some no) => yes.NoClassMethods ∧ no.NoClassMethods
  | .whileLoop _ body => body.NoClassMethods
  | .function decl => decl.NoClassMethods
  | .classDef ⟨_, _, methods, own, _⟩ => own = [] ∧ FunDecl.AllNoClassMethods methods
  | .traitDef ⟨_, _, methods⟩ => FunDecl.AllNoClassMethods methods
  | .expression _ | .print _ | .var .. | .breakLoop | .returnValue .. | .missing => True

def Stmt.AllNoClassMethods : List Stmt → Prop
  | [] => True
  | s :: rest => s.NoClassMethods ∧ Stmt.AllNoClassMethods rest

def FunDecl.NoClassMethods : FunDecl → Prop
  | ⟨_, _, body⟩ => Stmt.AllNoClassMethods body

def FunDecl.AllNoClassMethods : List FunDecl → Prop
  | [] => True
  | f :: rest => f.NoClassMethods ∧ FunDecl.AllNoClassMethods rest

end

mutual

/-- The functions that are declared in a statement, also inside other functions. -/
def Stmt.functions : Stmt → List FunDecl
  | .block body => Stmt.allFunctions body
  | .ifElse _ yes none => yes.functions
  | .ifElse _ yes (some no) => yes.functions ++ no.functions
  | .whileLoop _ body => body.functions
  | .function decl => decl.functions
  | .classDef ⟨_, _, methods, own, _⟩ =>
    FunDecl.allFunctions methods ++ FunDecl.allFunctions own
  | .traitDef ⟨_, _, methods⟩ => FunDecl.allFunctions methods
  | .expression _ | .print _ | .var .. | .breakLoop | .returnValue .. | .missing => []

def Stmt.allFunctions : List Stmt → List FunDecl
  | [] => []
  | s :: rest => s.functions ++ Stmt.allFunctions rest

/-- A function, and the functions that are declared in it. -/
def FunDecl.functions : FunDecl → List FunDecl
  | ⟨name, params, body⟩ => ⟨name, params, body⟩ :: Stmt.allFunctions body

def FunDecl.allFunctions : List FunDecl → List FunDecl
  | [] => []
  | f :: rest => f.functions ++ FunDecl.allFunctions rest

end

theorem FunDecl.allParsed_iff {source : Token → Prop} {fs : List FunDecl} :
    FunDecl.AllParsed source fs ↔ ∀ f ∈ fs, f.Parsed source := by
  induction fs with
  | nil => simp [FunDecl.AllParsed]
  | cons _ _ ih => simp [FunDecl.AllParsed, ih]

namespace Grammar

def Phrase.Parsed (source : Token → Prop) : Phrase → Prop
  | .expression _ e => e.Parsed source
  | .arguments values => Expr.AllParsed source values
  | .optional e => Expr.OptionParsed source e
  | .definition s => s.Parsed source
  | .initializer s => ∀ first, s = some first → first.Parsed source
  | .statement s _ => s.isPlain = true ∧ s.Parsed source
  | .declaration s => s.Parsed source
  | .declarations body => Stmt.AllParsed source body
  | .function _ f => f.Parsed source
  | .members list => ∀ member ∈ list, member.2.Parsed source
  | .methods list => FunDecl.AllParsed source list

variable {fits : Nat → Prop} {source : Token → Prop}

theorem Names.parsed {names ts : List Token} (h : Names names ts) (from_ : Each source ts) :
    ∀ name ∈ names, name.Names source := by
  induction h with
  | one isName => simpa using ⟨isName, from_.head⟩
  | more isName _ _ ih => exact List.forall_mem_cons.mpr ⟨⟨isName, from_.head⟩, ih from_.tail.tail⟩

theorem Parameters.parsed {kind : FunctionKind} {params : Option (List Token)} {ts : List Token}
    (h : Parameters fits kind params ts) (from_ : Each source ts) : ∀ param ∈ params.getD [], param.Names source := by
  cases h with
  | getter => simp
  | empty => simp
  | list _ _ names => exact names.parsed from_.left.tail

theorem Includes.unresolved {traits : List NameRef} {ts : List Token} (h : Includes traits ts) :
    ∀ ref ∈ traits, ref.depth = none := by
  cases h with
  | nothing => simp
  | traits => simp

/-- What holds of the parts of a `for` loop, and of loops and blocks that are made of such parts, holds of the loop. -/
theorem forLoop_of {P Q : Stmt → Prop} {E : Expr → Prop} {first : Option Stmt} {c increment : Option Expr} {body : Stmt}
    (start : ∀ s ∈ first, Q s) (test : ∀ e ∈ c, E e) (step : ∀ e ∈ increment, E e) (inner : P body)
    (always : E (.literal (.bool true))) (loop : ∀ {e s}, E e → P s → P (.whileLoop e s))
    (stepped : ∀ {s e}, P s → E e → P (.block [s, .expression e])) (started : ∀ {s t}, Q s → P t → P (.block [s, t])) :
    P (forLoop first c increment body) := by
  have condition : E (c.getD (.literal (.bool true))) := by
    cases c with
    | none => exact always
    | some value => exact test value rfl
  have turn : ∃ s, P s ∧ forLoop first c increment body = forLoop first c none s := by
    cases increment with
    | none => exact ⟨body, inner, rfl⟩
    | some value => exact ⟨_, stepped inner (step value rfl), rfl⟩
  obtain ⟨s, inside, same⟩ := turn
  rw [same]
  cases first with
  | none => exact loop condition inside
  | some own => exact started (start own rfl) (loop condition inside)

theorem parsed_members {list : List (Bool × FunDecl)} (each : ∀ m ∈ list, m.2.Parsed source)
    (keep : Bool × FunDecl → Bool) : FunDecl.AllParsed source ((list.filter keep).map Prod.snd) := by
  refine FunDecl.allParsed_iff.mpr fun f member => ?_
  obtain ⟨m, kept, rfl⟩ := List.mem_map.mp member
  exact each m (List.mem_filter.mp kept).1

/-- What is written with tokens of the source has the shape of what was read, by induction on how it is written. -/
theorem Derives.parsed {p : Phrase} {ts : List Token} (h : Derives fits p ts) (from_ : Each source ts) :
    p.Parsed source := by
  induction h with
  | inner _ _ part => exact part from_
  | @joined layer _ _ _ _ _ _ _ _ _ _ first second =>
    have parts := And.intro (first from_.left) (second from_.right.tail)
    cases layer <;> exact parts
  | conditional _ _ _ _ _ test yes no =>
    exact ⟨test from_.left, yes from_.right.tail.left, no from_.right.tail.right.tail⟩
  | assign isName _ _ value => exact ⟨⟨isName, from_.head⟩, value from_.tail.tail⟩
  | set _ _ _ _ _ target value => exact ⟨target from_.left, value from_.right.tail.tail.tail⟩
  | call _ _ _ _ _ target list => exact ⟨target from_.left, list from_.right.tail.left⟩
  | get _ _ _ target => exact target from_.left
  | literal | name | noArguments | noDeclarations | noMethods => exact trivial
  | this isThis => exact ⟨isThis, from_.head⟩
  | super isSuper => exact ⟨isSuper, from_.head⟩
  | group _ _ _ part => exact part from_.tail.left
  | oneArgument _ part => exact ⟨part from_, trivial⟩
  | moreArguments _ _ _ part others => exact ⟨part from_.left, others from_.right.tail⟩
  | absent | noInitializer => rintro _ ⟨⟩
  | present _ part => rintro _ ⟨⟩; exact part from_
  | unset isName => exact ⟨⟨isName, from_.head⟩, by rintro _ ⟨⟩; trivial⟩
  | valued isName _ _ _ part => exact ⟨⟨isName, from_.head⟩, by rintro _ ⟨⟩; exact part from_.tail.tail.left⟩
  | newVariable _ _ part => rintro _ ⟨⟩; exact part from_.tail
  | firstValue _ _ part => rintro _ ⟨⟩; exact part from_.left
  | evaluation _ _ part => exact ⟨rfl, part from_.left⟩
  | print _ _ _ part | returned _ _ _ part | block _ _ _ part => exact ⟨rfl, part from_.tail.left⟩
  | broken => exact ⟨rfl, trivial⟩
  | ifThen _ _ _ _ _ test yes => exact ⟨rfl, test from_.tail.tail.left, yes from_.tail.tail.right.tail⟩
  | ifElse _ _ _ _ _ _ _ test yes no =>
    exact ⟨rfl, test from_.tail.tail.left, yes from_.tail.tail.right.tail.left, no from_.tail.tail.right.tail.right.tail⟩
  | «while» _ _ _ _ _ test body => exact ⟨rfl, test from_.tail.tail.left, body from_.tail.tail.right.tail⟩
  | «for» _ _ _ _ _ _ _ _ start test step body =>
    have behind := from_.tail.tail.right
    exact forLoop_of (P := fun s => s.isPlain = true ∧ s.Parsed source) (start from_.tail.tail.left) (test behind.left)
      (step behind.right.tail.left) (body behind.right.tail.right.tail) trivial (fun test body => ⟨rfl, test, body⟩)
      (fun body step => ⟨rfl, body.2, step, trivial⟩) fun start loop => ⟨rfl, start, loop.2, trivial⟩
  | classDef _ isName _ _ _ inclusion _ body =>
    have members := body from_.tail.tail.right.right.tail.left
    exact ⟨⟨isName, from_.tail.head⟩, inclusion.unresolved, parsed_members members _, parsed_members members _⟩
  | traitDef _ isName _ _ _ _ body => exact ⟨⟨isName, from_.tail.head⟩, body from_.tail.tail.right.tail.left⟩
  | signed _ _ part | functionDef _ _ part | varDef _ _ part => exact part from_.tail
  | plain _ part => exact (part from_).2
  | moreDeclarations _ _ first others | method _ _ first others => exact ⟨first from_.left, others from_.right⟩
  | function isName _ _ list _ part =>
    exact ⟨⟨isName, from_.head⟩, list.parsed from_.tail.left, part from_.tail.right.tail.left⟩
  | noMembers => exact fun _ member => absurd member List.not_mem_nil
  | ownMember _ _ _ first others => exact List.forall_mem_cons.mpr ⟨first from_.tail.left, others from_.tail.right⟩
  | member _ _ first others => exact List.forall_mem_cons.mpr ⟨first from_.left, others from_.right⟩

/-- Every program that tokens are read as has the shape of one that was read, even with complaints. -/
theorem parsed_of_parseProgram {tokens : List Token} {program : List Stmt}
    (parsed : (parseProgram tokens).result = .ok program) : Stmt.AllParsed (· ∈ tokens) program := by
  obtain ⟨ts, sub, derived⟩ := derives_of_parseProgram parsed
  exact derived.parsed fun t member => sub member

end Grammar
end LoxLang
