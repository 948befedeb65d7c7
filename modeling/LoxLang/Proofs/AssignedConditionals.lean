import LoxLang.Proofs.Effects
import LoxLang.Proofs.Filling
import LoxLang.Proofs.Relining
import LoxLang.Proofs.Unparse

/-!
Assignments before a question mark. An assignment binds tighter than a conditional, so an equals sign in front of a
conditional takes the condition and leaves the branches behind: `v = c ? t : e` stores the value of `c`, and what `t` or
`e` yields is the value of the whole. Parentheses around the conditional, or a variable that is declared with it, take
all of it.
-/

namespace LoxLang

inductive Target where
  | named (name : Token) (depth : Option Nat)
  | property (object : Expr) (name : Token)

variable {ts : List Token} {target : Target} {value : Expr}

namespace Target

/-- The last name of it. -/
def label : Target → Token
  | named name _ | property _ name => name

def assign (value : Expr) : Target → Expr
  | named name depth => .assign name value depth
  | property object name => .set object name value

/-- Stores what a computation yields, and yields it. The object of a property is evaluated before, and has to have
fields. -/
def store (n : Nat) (value : Eval Value) : Target → Eval Value
  | named name depth => do
    let value ← value
    Eval.assignName name depth value
    return value
  | property object name => do
    let object ← Eval.evaluate n object
    Eval.checkHasFields object name
    let value ← value
    Eval.setProperty object name value
    return value

open Grammar in
/-- The tokens it is written with. -/
inductive Written (fits : Nat → Prop) : Target → List Token → Prop where
  | named {name : Token} (isName : name.kind = .identifier) : Written fits (.named name none) [name]
  | property {object : Expr} {dot name : Token} {os : List Token} (isDot : dot.kind = .dot)
      (isName : name.kind = .identifier) (part : Derives fits (.expression .call object) os) :
      Written fits (.property object name) (os ++ [dot, name])

theorem evaluate_assign (target : Target) (value : Expr) (n : Nat) :
    Eval.evaluate (n + 1) (target.assign value) = target.store n (Eval.evaluate n value) := by
  cases target <;> rfl

end Target

/-! ### Reading -/

namespace Grammar

/-- The tokens are read as the statement, whatever stands before and behind it in a program. -/
def ReadAs (ts : List Token) (s : Stmt) : Prop :=
  ∀ before after us vs last rest, Derives (· ≤ maxArguments) (.declarations before) us →
    Derives (· ≤ maxArguments) (.declarations after) vs → last.kind = .endOfFile →
    parseProgram (us ++ (ts ++ (vs ++ last :: rest))) = ⟨.ok (before ++ s :: after), []⟩

theorem Derives.readAs {s : Stmt} (derived : Derives (· ≤ maxArguments) (.declaration s) ts) : ReadAs ts s := by
  intro before after us vs last rest one two isEnd
  have whole := one.append (.moreDeclarations derived two)
  rw [← List.append_assoc ts, ← List.append_assoc us]
  exact parseProgram_of_derives whole isEnd

section
variable {fits : Nat → Prop}

theorem Derives.assignTo {equals : Token} {us vs : List Token} (written : target.Written fits us)
    (isEquals : equals.kind = .equal) (source : Derives fits (.expression .assignment value) vs) :
    Derives fits (.expression .assignment (target.assign value)) (us ++ equals :: vs) := by
  cases written with
  | named isName => exact .assign isName isEquals source
  | property isDot isName part =>
    rw [List.append_assoc]
    exact .set isDot isName isEquals part source

/-- What is assigned stands in the layer of assignments, by induction on the layers around the assignment. -/
theorem Derives.assigned {layer : Layer} (derived : Derives fits (.expression layer (target.assign value)) ts) :
    ∃ vs, Derives fits (.expression .assignment value) vs := by
  generalize isPhrase : Phrase.expression layer (target.assign value) = phrase at derived
  induction derived generalizing layer with
  | inner _ _ ih =>
    cases isPhrase
    exact ih rfl
  | assign _ _ source =>
    cases target <;> cases isPhrase
    exact ⟨_, source⟩
  | set _ _ _ _ source =>
    cases target <;> cases isPhrase
    exact ⟨_, source⟩
  | @joined outer =>
    obtain ⟨rfl, same⟩ := Phrase.expression.inj isPhrase
    cases target <;> cases layer <;> cases same
  | _ => cases target <;> cases isPhrase

/-- A conditional does not stand in the layer of assignments. -/
theorem Derives.ne_conditional {layer : Layer} (derived : Derives fits (.expression layer value) ts)
    (tighter : layer ≠ .conditional) (c t e : Expr) : value ≠ .conditional c t e := by
  rintro rfl
  generalize isPhrase : Phrase.expression layer (.conditional c t e) = phrase at derived
  induction derived generalizing layer with
  | @inner outer inner _ _ next part ih =>
    cases isPhrase
    refine ih ?_ rfl
    rintro rfl
    cases outer <;> cases next
  | conditional =>
    cases isPhrase
    exact tighter rfl
  | @joined outer =>
    obtain ⟨rfl, same⟩ := Phrase.expression.inj isPhrase
    cases layer <;> cases same
  | _ => cases isPhrase

theorem Derives.of_mem {body : List Stmt} (derived : Derives fits (.declarations body) ts) {s : Stmt}
    (member : s ∈ body) : ∃ us, Derives fits (.declaration s) us := by
  induction body generalizing ts with
  | nil => cases member
  | cons _ _ ih =>
    cases derived with
    | moreDeclarations head others =>
      rcases List.mem_cons.mp member with rfl | member
      · exact ⟨_, head⟩
      · exact ih others member

theorem Derives.of_expression {e : Expr} (derived : Derives fits (.declaration (.expression e)) ts) :
    ∃ us, Derives fits (.expression .conditional e) us := by
  cases derived with
  | varDef _ part => cases part
  | @plain _ isOpen _ part =>
    generalize isPhrase : Phrase.statement (.expression e) isOpen = phrase at part
    cases part with
    | evaluation _ part =>
      cases isPhrase
      exact ⟨_, part⟩
    | @«for» _ _ _ _ first =>
      obtain ⟨same, -⟩ := Phrase.statement.inj isPhrase
      cases first <;> cases same
    | _ => cases isPhrase

end

/-- No program assigns a conditional to anything, unless in parentheses. -/
theorem ne_conditional_of_parseProgram {tokens : List Token} {program : List Stmt}
    (parsed : (parseProgram tokens).result = .ok program) (member : .expression (target.assign value) ∈ program)
    (c t e : Expr) : value ≠ .conditional c t e := by
  obtain ⟨ts, -, derived⟩ := derives_of_parseProgram parsed
  obtain ⟨us, statement⟩ := derived.of_mem member
  obtain ⟨vs, whole⟩ := statement.of_expression
  obtain ⟨ws, source⟩ := whole.assigned
  exact source.ne_conditional (by decide) c t e

end Grammar

/-! ### Resolving and running -/

namespace Scope

/-- Resolving an expression yields another, wherever it is done. -/
def ResolvedTo (e e' : Expr) : Prop := ∃ st st', resolveExpr e st = .ok e' st'

theorem resolveExpr_assign {resolved : Expr} {st st' : State}
    (ends : resolveExpr (target.assign value) st = .ok resolved st') :
    ∃ target' value', resolved = Target.assign value' target' ∧ target'.label = target.label ∧
      ResolvedTo value value' := by
  cases target with
  | named name =>
    simp only [Target.assign, resolveExpr, ok_bind, ok_pure] at ends
    obtain ⟨value', _, first, depth', _, -, rfl, -⟩ := ends
    exact ⟨.named name depth', value', rfl, rfl, _, _, first⟩
  | property _ name =>
    simp only [Target.assign, resolveExpr, ok_bind, ok_pure] at ends
    obtain ⟨value', _, first, object', _, -, rfl, -⟩ := ends
    exact ⟨.property object' name, value', rfl, rfl, _, _, first⟩

end Scope

namespace Eval

def pick (n : Nat) (test : Eval Value) (t e : Expr) : Eval Value := do
  let value ← test
  evaluate n (if value.isTruthy then t else e)

theorem evaluate_conditional (n : Nat) (c t e : Expr) :
    evaluate (n + 1) (.conditional c t e) = pick n (evaluate n c) t e := by
  refine bind_congr fun value => ?_
  cases value.isTruthy <;> rfl

/-- The value of the condition is stored; the branch that it picks comes after, and its value is dropped. -/
theorem execute_conditional_assign (target : Target) (c t e : Expr) (n : Nat) :
    execute (n + 3) (.expression (.conditional (target.assign c) t e)) =
      discard (pick (n + 1) (target.store n (evaluate n c)) t e) := by
  have split : evaluate (n + 2) (.conditional (target.assign c) t e) =
      pick (n + 1) (target.store n (evaluate n c)) t e := by
    rw [evaluate_conditional, Target.evaluate_assign]
  exact congrArg discard split

theorem execute_assign_grouping (target : Target) (c t e : Expr) (n : Nat) :
    execute (n + 4) (.expression (target.assign (.grouping (.conditional c t e)))) =
      discard (target.store (n + 2) (pick n (evaluate n c) t e)) := by
  have inner : evaluate (n + 2) (.grouping (.conditional c t e)) = pick n (evaluate n c) t e :=
    evaluate_conditional n c t e
  have whole : evaluate (n + 3) (target.assign (.grouping (.conditional c t e))) =
      target.store (n + 2) (pick n (evaluate n c) t e) := by
    rw [Target.evaluate_assign, inner]
  exact congrArg discard whole

end Eval

open Grammar Scope Eval in
/-- An assignment takes no more than the condition of a conditional. Read without parentheses, the assignment is the
condition itself, and so it stays when names are resolved. Running it stores the value of `c` and picks a branch by it,
whose value is dropped. Only in parentheses is the conditional what is assigned, and no program assigns one without;
yet a variable that is declared takes the whole. -/
theorem assignment_takes_condition {target : Target} {c t e : Expr} {equals mark colon semicolon : Token}
    {us cs ts es : List Token} (written : target.Written (· ≤ maxArguments) us) (isEquals : equals.kind = .equal)
    (isMark : mark.kind = .question) (isColon : colon.kind = .colon) (isEnd : semicolon.kind = .semicolon)
    (test : Derives (· ≤ maxArguments) (.expression .disjunction c) cs)
    (yes : Derives (· ≤ maxArguments) (.expression .conditional t) ts)
    (no : Derives (· ≤ maxArguments) (.expression .conditional e) es) :
    ReadAs (us ++ equals :: (cs ++ mark :: (ts ++ colon :: es) ++ [semicolon]))
        (.expression (.conditional (target.assign c) t e)) ∧
      (∀ st st' s, resolveStmt (.expression (.conditional (target.assign c) t e)) st = .ok s st' →
        ∃ target' c' t' e', s = .expression (.conditional (Target.assign c' target') t' e') ∧
          target'.label = target.label ∧ ResolvedTo c c' ∧ ResolvedTo t t' ∧ ResolvedTo e e') ∧
      (∀ (target : Target) (c t e : Expr) (n : Nat),
        execute (n + 3) (.expression (.conditional (target.assign c) t e)) =
          discard (pick (n + 1) (target.store n (evaluate n c)) t e)) ∧
      (∀ left right : Token, left.kind = .leftParen → right.kind = .rightParen →
        ReadAs (us ++ equals :: left :: (cs ++ mark :: (ts ++ colon :: es) ++ [right, semicolon]))
          (.expression (target.assign (.grouping (.conditional c t e))))) ∧
      (∀ (target : Target) (c t e : Expr) (n : Nat),
        execute (n + 4) (.expression (target.assign (.grouping (.conditional c t e)))) =
          discard (target.store (n + 2) (pick n (evaluate n c) t e))) ∧
      (∀ tokens program (target : Target) value, (parseProgram tokens).result = .ok program →
        .expression (target.assign value) ∈ program → ∀ c t e, value ≠ .conditional c t e) ∧
      ∀ keyword name : Token, keyword.kind = .kwVar → name.kind = .identifier →
        ReadAs (keyword :: name :: equals :: (cs ++ mark :: (ts ++ colon :: es) ++ [semicolon]))
          (.var name (some (.conditional c t e))) := by
  have condition : Derives (· ≤ maxArguments) (.expression .assignment c) cs := .inner rfl test
  have whole := Derives.conditional isMark isColon condition yes no
  refine ⟨?_, ?_, execute_conditional_assign, ?_, execute_assign_grouping, ?_, ?_⟩
  · have split := Derives.conditional isMark isColon (.assignTo written isEquals condition) yes no
    have statement := Derives.readAs (.plain (.evaluation isEnd split))
    simpa only [List.append_assoc, List.cons_append] using statement
  · intro st st' s resolved
    simp only [resolveStmt, resolveExpr, ok_bind, ok_pure] at resolved
    obtain ⟨_, _, ⟨_, _, first, t', _, second, e', _, third, rfl, -⟩, rfl, -⟩ := resolved
    obtain ⟨target', c', rfl, label, source⟩ := resolveExpr_assign first
    exact ⟨target', c', t', e', rfl, label, source, ⟨_, _, second⟩, _, _, third⟩
  · intro left right isLeft isRight
    have grouped : Derives (· ≤ maxArguments) (.expression .assignment (.grouping (.conditional c t e))) _ :=
      (Derives.group isLeft isRight whole).loosen (by decide)
    have statement := Derives.readAs (.plain (.evaluation isEnd (.inner rfl (.assignTo written isEquals grouped))))
    simpa only [List.append_assoc, List.cons_append, List.nil_append] using statement
  · intro tokens program target value parsed member
    exact ne_conditional_of_parseProgram parsed member
  · intro keyword name isVar isName
    exact Derives.readAs (.varDef isVar (.valued isName isEquals isEnd whole))

/-! The assignment `x = true ? "a" : "b";` to a global variable, without parentheses and with them. -/

def chosenName : Token := .named "x"

def chosenCondition : Expr := .literal (.bool true)

def chosenThen : Expr := .literal (.string "a")

def chosenElse : Expr := .literal (.string "b")

def chosenMachine : Machine := (Machine.start {} {}).bind 0 "x" .nil

open Grammar Eval in
/-- Without parentheses the variable ends up with the value of the condition, and with them with that of the branch. -/
theorem assignment_takes_condition_chosen :
    parseProgram (chosenName :: Spelling.oneLine.token .equal ::
        (Spelling.oneLine.expression (.conditional chosenCondition chosenThen chosenElse) ++
          [Spelling.oneLine.token .semicolon, Spelling.oneLine.token .endOfFile])) =
      ⟨.ok [.expression (.conditional (.assign chosenName chosenCondition none) chosenThen chosenElse)], []⟩ ∧
    execute 4 (.expression (.conditional (.assign chosenName chosenCondition none) chosenThen chosenElse))
      chosenMachine = .ok () (chosenMachine.bind 0 "x" (.bool true)) ∧
    parseProgram (chosenName :: Spelling.oneLine.token .equal ::
        (Spelling.oneLine.expression (.grouping (.conditional chosenCondition chosenThen chosenElse)) ++
          [Spelling.oneLine.token .semicolon, Spelling.oneLine.token .endOfFile])) =
      ⟨.ok [.expression (.assign chosenName
        (.grouping (.conditional chosenCondition chosenThen chosenElse)) none)], []⟩ ∧
    execute 5 (.expression (.assign chosenName
      (.grouping (.conditional chosenCondition chosenThen chosenElse)) none)) chosenMachine =
      .ok () (chosenMachine.bind 0 "x" (.string "a")) := by
  let w := Spelling.oneLine
  have written : (Target.named chosenName none).Written (· ≤ maxArguments) [chosenName] := .named rfl
  have test := derives_expression w chosenCondition .disjunction rfl
  have yes := derives_expression w chosenThen .conditional rfl
  have no := derives_expression w chosenElse .conditional rfl
  obtain ⟨reads, -, runs, readsGrouped, runsGrouped, -⟩ := assignment_takes_condition written (w.kind_token .equal)
    (w.kind_token .question) (w.kind_token .colon) (w.kind_token .semicolon) test yes no
  have nothing : Derives (· ≤ maxArguments) (.declarations []) [] := .noDeclarations
  refine ⟨?_, ?_, ?_, ?_⟩
  · exact reads [] [] [] [] (w.token .endOfFile) [] nothing nothing rfl
  · exact congrFun (runs (.named chosenName none) chosenCondition chosenThen chosenElse 1) chosenMachine
  · exact readsGrouped (w.token .leftParen) (w.token .rightParen) rfl rfl [] [] [] [] (w.token .endOfFile) [] nothing
      nothing rfl
  · exact congrFun (runsGrouped (.named chosenName none) chosenCondition chosenThen chosenElse 1) chosenMachine

end LoxLang
