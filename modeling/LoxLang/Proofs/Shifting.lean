import LoxLang.Syntax
import Mathlib.Data.Option.Basic
import Mathlib.Logic.Function.Iterate

/-!
Trees whose names are looked up at other depths. A shift says which depth stands for a depth; inside one more scope it
leaves the innermost depth as it is.
-/

namespace LoxLang

/-- The depths inside one more scope. -/
def under (g : Nat → Nat) : Nat → Nat
  | 0 => 0
  | d + 1 => g d + 1

@[simp]
theorem under_id : under id = id := by
  funext d
  cases d <;> rfl

/-- Inside a number of scopes, one scope that is added outside of them shifts what lies outside of them. -/
theorem iterate_under_succ (n d : Nat) : (under^[n] Nat.succ) d = if d < n then d else d + 1 := by
  induction n generalizing d with
  | zero => simp
  | succ _ ih =>
    rw [Function.iterate_succ_apply']
    cases d with
    | zero => simp [under]
    | succ =>
      simp only [under, ih]
      split <;> split <;> omega

/-- The depths around the methods of a class. A class that extends another has a scope with `super`. -/
def underBase (base : Option NameRef) (g : Nat → Nat) : Nat → Nat := if base.isSome then under g else g

@[simp]
theorem underBase_id (base : Option NameRef) : underBase base id = id := by
  simp [underBase]

def NameRef.shift (g : Nat → Nat) (ref : NameRef) : NameRef := ⟨ref.name, ref.depth.map g⟩

theorem NameRef.shift_id : NameRef.shift id = id := by
  funext ref
  simp [NameRef.shift]

mutual

/-- Expressions that differ in their depths. The scope with the object of a method stays right inside the scope with
`super`. -/
inductive Expr.Shifted : (Nat → Nat) → Expr → Expr → Prop
  | binary {g : Nat → Nat} {left left' right right' : Expr} (op : Token) (first : Expr.Shifted g left left')
    (second : Expr.Shifted g right right') : Expr.Shifted g (.binary left op right) (.binary left' op right')
  | logical {g : Nat → Nat} {left left' right right' : Expr} (op : Token) (first : Expr.Shifted g left left')
    (second : Expr.Shifted g right right') :
    Expr.Shifted g (.logical left op right) (.logical left' op right')
  | unary {g : Nat → Nat} {operand operand' : Expr} (op : Token) (inner : Expr.Shifted g operand operand') :
    Expr.Shifted g (.unary op operand) (.unary op operand')
  | conditional {g : Nat → Nat} {a a' b b' c c' : Expr}
    (test : Expr.Shifted g a a') (yes : Expr.Shifted g b b')
    (no : Expr.Shifted g c c') :
    Expr.Shifted g (.conditional a b c) (.conditional a' b' c')
  | grouping {g : Nat → Nat} {operand operand' : Expr} (inner : Expr.Shifted g operand operand') :
    Expr.Shifted g (.grouping operand) (.grouping operand')
  | literal {g : Nat → Nat} (value : Literal) : Expr.Shifted g (.literal value) (.literal value)
  | var {g : Nat → Nat} (name : Token) (depth : Option Nat) : Expr.Shifted g (.var name depth) (.var name (depth.map g))
  | assign {g : Nat → Nat} {value value' : Expr} (name : Token) (inner : Expr.Shifted g value value')
    (depth : Option Nat) : Expr.Shifted g (.assign name value depth) (.assign name value' (depth.map g))
  | call {g : Nat → Nat} {callee callee' : Expr} {args args' : List Expr} (paren : Token)
    (target : Expr.Shifted g callee callee') (given : Expr.AllShifted g args args') :
    Expr.Shifted g (.call callee paren args) (.call callee' paren args')
  | get {g : Nat → Nat} {object object' : Expr} (inner : Expr.Shifted g object object') (name : Token) :
    Expr.Shifted g (.get object name) (.get object' name)
  | set {g : Nat → Nat} {object object' value value' : Expr} (target : Expr.Shifted g object object') (name : Token)
    (source : Expr.Shifted g value value') : Expr.Shifted g (.set object name value) (.set object' name value')
  | this {g : Nat → Nat} (keyword : Token) (depth : Option Nat) :
    Expr.Shifted g (.this keyword depth) (.this keyword (depth.map g))
  | super {g : Nat → Nat} (keyword method : Token) {depth : Option Nat}
    (beside : ∀ d, depth = some d → g (d - 1) = g d - 1) :
    Expr.Shifted g (.super keyword method depth) (.super keyword method (depth.map g))
  | missing {g : Nat → Nat} : Expr.Shifted g .missing .missing

inductive Expr.AllShifted : (Nat → Nat) → List Expr → List Expr → Prop
  | nil {g : Nat → Nat} : Expr.AllShifted g [] []
  | cons {g : Nat → Nat} {e e' : Expr} {rest rest' : List Expr} (first : Expr.Shifted g e e')
    (others : Expr.AllShifted g rest rest') : Expr.AllShifted g (e :: rest) (e' :: rest')

end

abbrev Expr.OptionShifted (g : Nat → Nat) : Option Expr → Option Expr → Prop := Option.Rel (Expr.Shifted g)

mutual

/-- Statements that differ in their depths. A declaration stands where the innermost scope is the same. -/
inductive Stmt.Shifted : (Nat → Nat) → Stmt → Stmt → Prop
  | expression {g : Nat → Nat} {value value' : Expr} (inner : Expr.Shifted g value value') :
    Stmt.Shifted g (.expression value) (.expression value')
  | print {g : Nat → Nat} {value value' : Expr} (inner : Expr.Shifted g value value') :
    Stmt.Shifted g (.print value) (.print value')
  | var {g : Nat → Nat} {init init' : Option Expr} (here : g 0 = 0) (name : Token)
    (inner : Expr.OptionShifted g init init') :
    Stmt.Shifted g (.var name init) (.var name init')
  | block {g : Nat → Nat} {body body' : List Stmt} (inner : Stmt.AllShifted (under g) body body') :
    Stmt.Shifted g (.block body) (.block body')
  | ifThen {g : Nat → Nat} {c c' : Expr} {s s' : Stmt}
    (test : Expr.Shifted g c c') (yes : Stmt.Shifted g s s') :
    Stmt.Shifted g (.ifElse c s none) (.ifElse c' s' none)
  | ifElse {g : Nat → Nat} {c c' : Expr} {s s' t t' : Stmt}
    (test : Expr.Shifted g c c') (yes : Stmt.Shifted g s s')
    (no : Stmt.Shifted g t t') :
    Stmt.Shifted g (.ifElse c s (some t)) (.ifElse c' s' (some t'))
  | whileLoop {g : Nat → Nat} {c c' : Expr} {body body' : Stmt}
    (test : Expr.Shifted g c c') (inner : Stmt.Shifted g body body') :
    Stmt.Shifted g (.whileLoop c body) (.whileLoop c' body')
  | breakLoop {g : Nat → Nat} : Stmt.Shifted g .breakLoop .breakLoop
  | returnValue {g : Nat → Nat} {value value' : Option Expr} (keyword : Token)
    (inner : Expr.OptionShifted g value value') :
    Stmt.Shifted g (.returnValue keyword value) (.returnValue keyword value')
  | function {g : Nat → Nat} {f f' : FunDecl} (here : g 0 = 0) (inner : FunDecl.Shifted g f f') :
    Stmt.Shifted g (.function f) (.function f')
  | classDef {g : Nat → Nat} (here : g 0 = 0) (name : Token) (base : Option NameRef)
    {methods methods' classMethods own' : List FunDecl} (traits : List NameRef)
    (inner : FunDecl.AllShifted (under (underBase base g)) methods methods')
    (own : FunDecl.AllShifted (under (underBase base g)) classMethods own') :
    Stmt.Shifted g (.classDef ⟨name, base, methods, classMethods, traits⟩)
      (.classDef ⟨name, base.map (NameRef.shift g), methods', own', traits.map (NameRef.shift (underBase base g))⟩)
  | traitDef {g : Nat → Nat} (here : g 0 = 0) (name : Token) (traits : List NameRef)
    {methods methods' : List FunDecl} (inner : FunDecl.AllShifted (under g) methods methods') :
    Stmt.Shifted g (.traitDef ⟨name, traits, methods⟩) (.traitDef ⟨name, traits.map (NameRef.shift g), methods'⟩)
  | missing {g : Nat → Nat} : Stmt.Shifted g .missing .missing

inductive Stmt.AllShifted : (Nat → Nat) → List Stmt → List Stmt → Prop
  | nil {g : Nat → Nat} : Stmt.AllShifted g [] []
  | cons {g : Nat → Nat} {s s' : Stmt} {rest rest' : List Stmt} (first : Stmt.Shifted g s s')
    (others : Stmt.AllShifted g rest rest') : Stmt.AllShifted g (s :: rest) (s' :: rest')

inductive FunDecl.Shifted : (Nat → Nat) → FunDecl → FunDecl → Prop
  | mk {g : Nat → Nat} (name : Token) (params : Option (List Token)) {body body' : List Stmt}
    (inner : Stmt.AllShifted (under g) body body') : FunDecl.Shifted g ⟨name, params, body⟩ ⟨name, params, body'⟩

inductive FunDecl.AllShifted : (Nat → Nat) → List FunDecl → List FunDecl → Prop
  | nil {g : Nat → Nat} : FunDecl.AllShifted g [] []
  | cons {g : Nat → Nat} {f f' : FunDecl} {rest rest' : List FunDecl} (first : FunDecl.Shifted g f f')
    (others : FunDecl.AllShifted g rest rest') : FunDecl.AllShifted g (f :: rest) (f' :: rest')

end

section
variable {g : Nat → Nat} {f f' : FunDecl}

theorem FunDecl.Shifted.name_eq (shifted : FunDecl.Shifted g f f') : f'.name = f.name := by
  cases shifted
  rfl

theorem FunDecl.Shifted.params_eq (shifted : FunDecl.Shifted g f f') : f'.params = f.params := by
  cases shifted
  rfl

theorem FunDecl.Shifted.arity_eq (shifted : FunDecl.Shifted g f f') : f'.arity = f.arity := by
  rw [FunDecl.arity, FunDecl.arity, shifted.params_eq]

theorem FunDecl.Shifted.isGetter_eq (shifted : FunDecl.Shifted g f f') : f'.isGetter = f.isGetter := by
  rw [FunDecl.isGetter, FunDecl.isGetter, shifted.params_eq]

end

/-! ### Trees by themselves -/

mutual

theorem Expr.shifted_refl : ∀ e : Expr, Expr.Shifted id e e
  | .binary left op right => .binary op (Expr.shifted_refl left) (Expr.shifted_refl right)
  | .logical left op right => .logical op (Expr.shifted_refl left) (Expr.shifted_refl right)
  | .unary op operand => .unary op (Expr.shifted_refl operand)
  | .conditional test yes no =>
    .conditional (Expr.shifted_refl test) (Expr.shifted_refl yes) (Expr.shifted_refl no)
  | .grouping inner => .grouping (Expr.shifted_refl inner)
  | .literal value => .literal value
  | .var name depth => by simpa using Expr.Shifted.var (g := id) name depth
  | .assign name value depth => by simpa using Expr.Shifted.assign name (Expr.shifted_refl value) depth
  | .call callee paren args => .call paren (Expr.shifted_refl callee) (Expr.allShifted_refl args)
  | .get object name => .get (Expr.shifted_refl object) name
  | .set object name value => .set (Expr.shifted_refl object) name (Expr.shifted_refl value)
  | .this keyword depth => by simpa using Expr.Shifted.this (g := id) keyword depth
  | .super keyword method depth => by
    have shifted : Expr.Shifted id (.super keyword method depth) (.super keyword method (depth.map id)) :=
      .super keyword method fun _ _ => rfl
    simpa using shifted
  | .missing => .missing

theorem Expr.allShifted_refl : ∀ es : List Expr, Expr.AllShifted id es es
  | [] => .nil
  | e :: rest => .cons (Expr.shifted_refl e) (Expr.allShifted_refl rest)

end

theorem Expr.optionShifted_refl (e : Option Expr) : Expr.OptionShifted id e e := by
  cases e with
  | none => exact .none
  | some e => exact .some (Expr.shifted_refl e)

mutual

theorem Stmt.shifted_refl : ∀ s : Stmt, Stmt.Shifted id s s
  | .expression value => .expression (Expr.shifted_refl value)
  | .print value => .print (Expr.shifted_refl value)
  | .var name init => .var rfl name (Expr.optionShifted_refl init)
  | .block body => .block (under_id.symm ▸ Stmt.allShifted_refl body)
  | .ifElse test yes none => .ifThen (Expr.shifted_refl test) (Stmt.shifted_refl yes)
  | .ifElse test yes (some no) =>
    .ifElse (Expr.shifted_refl test) (Stmt.shifted_refl yes) (Stmt.shifted_refl no)
  | .whileLoop test body => .whileLoop (Expr.shifted_refl test) (Stmt.shifted_refl body)
  | .breakLoop => .breakLoop
  | .returnValue keyword value => .returnValue keyword (Expr.optionShifted_refl value)
  | .function f => .function rfl (FunDecl.shifted_refl f)
  | .classDef ⟨name, base, methods, own, traits⟩ => by
    have around : under (underBase base id) = id := by rw [underBase_id, under_id]
    have shifted := Stmt.Shifted.classDef rfl name base traits
      (around.symm ▸ FunDecl.allShifted_refl methods) (around.symm ▸ FunDecl.allShifted_refl own)
    simpa only [underBase_id, NameRef.shift_id, Option.map_id_fun, List.map_id_fun, id_eq] using shifted
  | .traitDef ⟨name, traits, methods⟩ => by
    have shifted := Stmt.Shifted.traitDef rfl name traits (under_id.symm ▸ FunDecl.allShifted_refl methods)
    simpa only [NameRef.shift_id, List.map_id_fun, id_eq] using shifted
  | .missing => .missing

theorem Stmt.allShifted_refl : ∀ body : List Stmt, Stmt.AllShifted id body body
  | [] => .nil
  | s :: rest => .cons (Stmt.shifted_refl s) (Stmt.allShifted_refl rest)

theorem FunDecl.shifted_refl : ∀ f : FunDecl, FunDecl.Shifted id f f
  | ⟨name, params, body⟩ => .mk name params (under_id.symm ▸ Stmt.allShifted_refl body)

theorem FunDecl.allShifted_refl : ∀ fs : List FunDecl, FunDecl.AllShifted id fs fs
  | [] => .nil
  | f :: rest => .cons (FunDecl.shifted_refl f) (FunDecl.allShifted_refl rest)

end

end LoxLang
