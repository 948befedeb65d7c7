import LoxLang.Proofs.RelinedRuns

/-!
Tables of depths. The depths of the names in a program can be kept in a table, with a place for each use of a name, so that
in the program only the places stand. Whatever is added to the table later, the same depths are read, also by what is left
of the program on the machine.
-/

namespace LoxLang

variable {α β γ : Type}

/-- The depths of the uses of names, by their places. A global name has none. -/
abbrev DepthTable := List (Option Nat)

def DepthTable.depth (table : DepthTable) (place : Nat) : Option Nat := table[place]?.join

/-- What adds depths to a table. -/
abbrev Tabulate := StateM DepthTable

/-- Gives a use of a name a place in the table. -/
def tabulateDepth (depth : Option Nat) : Tabulate (Option Nat) := fun table => (some table.length, table ++ [depth])

def NameRef.tabulate (ref : NameRef) : Tabulate NameRef := return ⟨ref.name, ← tabulateDepth ref.depth⟩

def tabulateOption (part : α → Tabulate α) : Option α → Tabulate (Option α)
  | none => return none
  | some a => return some (← part a)

def tabulateList (part : α → Tabulate α) : List α → Tabulate (List α)
  | [] => return []
  | a :: rest => return (← part a) :: (← tabulateList part rest)

mutual

/-- The expression with places in the table for its depths. -/
def Expr.tabulate : Expr → Tabulate Expr
  | .binary left op right => return .binary (← left.tabulate) op (← right.tabulate)
  | .logical left op right => return .logical (← left.tabulate) op (← right.tabulate)
  | .unary op operand => return .unary op (← operand.tabulate)
  | .conditional test yes no => return .conditional (← test.tabulate) (← yes.tabulate) (← no.tabulate)
  | .grouping inner => return .grouping (← inner.tabulate)
  | .literal value => return .literal value
  | .var name depth => return .var name (← tabulateDepth depth)
  | .assign name value depth => return .assign name (← value.tabulate) (← tabulateDepth depth)
  | .call callee paren args => return .call (← callee.tabulate) paren (← Expr.tabulateAll args)
  | .get object name => return .get (← object.tabulate) name
  | .set object name value => return .set (← object.tabulate) name (← value.tabulate)
  | .this keyword depth => return .this keyword (← tabulateDepth depth)
  | .super keyword method depth => return .super keyword method (← tabulateDepth depth)
  | .missing => return .missing

def Expr.tabulateAll : List Expr → Tabulate (List Expr)
  | [] => return []
  | e :: rest => return (← e.tabulate) :: (← Expr.tabulateAll rest)

end

mutual

def Stmt.tabulate : Stmt → Tabulate Stmt
  | .expression value => return .expression (← value.tabulate)
  | .print value => return .print (← value.tabulate)
  | .var name value => return .var name (← tabulateOption Expr.tabulate value)
  | .block body => return .block (← Stmt.tabulateAll body)
  | .ifElse test yes none => return .ifElse (← test.tabulate) (← yes.tabulate) none
  | .ifElse test yes (some no) => return .ifElse (← test.tabulate) (← yes.tabulate) (some (← no.tabulate))
  | .whileLoop test body => return .whileLoop (← test.tabulate) (← body.tabulate)
  | .breakLoop => return .breakLoop
  | .returnValue keyword value => return .returnValue keyword (← tabulateOption Expr.tabulate value)
  | .function decl => return .function (← decl.tabulate)
  | .classDef ⟨name, base, methods, own, traits⟩ =>
    return .classDef ⟨name, ← tabulateOption NameRef.tabulate base, ← FunDecl.tabulateAll methods,
      ← FunDecl.tabulateAll own, ← tabulateList NameRef.tabulate traits⟩
  | .traitDef ⟨name, traits, methods⟩ =>
    return .traitDef ⟨name, ← tabulateList NameRef.tabulate traits, ← FunDecl.tabulateAll methods⟩
  | .missing => return .missing

def Stmt.tabulateAll : List Stmt → Tabulate (List Stmt)
  | [] => return []
  | s :: rest => return (← s.tabulate) :: (← Stmt.tabulateAll rest)

def FunDecl.tabulate : FunDecl → Tabulate FunDecl
  | ⟨name, params, body⟩ => return ⟨name, params, ← Stmt.tabulateAll body⟩

def FunDecl.tabulateAll : List FunDecl → Tabulate (List FunDecl)
  | [] => return []
  | f :: rest => return (← f.tabulate) :: (← FunDecl.tabulateAll rest)

end

/-! ### Reading a table -/

/-- The places are replaced by depths. -/
def Relining.depths (depth : Nat → Option Nat) : Relining := ⟨id, depth⟩

/-- The places are replaced by what is in a table. -/
def reading (table : DepthTable) : Relining := .depths table.depth

/-- Only the first places are kept. -/
def Relining.below (n : Nat) : Relining := .depths (Option.guard (· < n))

/-- From the table and from all that are longer the same is read, and every place is inside the table. -/
structure Stands (replace : Relining → α → α) (table : DepthTable) (kept original : α) : Prop where
  read : ∀ all, table <+: all → replace (reading all) kept = original
  inside : ∀ n ≥ table.length, replace (.below n) kept = kept

variable {r : Relining → α → α} {r' : Relining → β → β} {r₂ : Relining → γ → γ} {a kept original : α} {b : β}
  {table : DepthTable}

theorem Stands.mono (stands : Stands r table kept original) {longer : DepthTable} (sub : table <+: longer) :
    Stands r longer kept original :=
  ⟨fun all more => stands.read all (sub.trans more), fun n room => stands.inside n (sub.length_le.trans room)⟩

theorem Stands.of_same (same : ∀ depth, r (.depths depth) a = a) : Stands r table a a :=
  ⟨fun _ _ => same _, fun _ _ => same _⟩

theorem Stands.map (stands : Stands r table kept original) {f : α → β}
    (through : ∀ depth a, r' (.depths depth) (f a) = f (r (.depths depth) a)) : Stands r' table (f kept) (f original) :=
  ⟨fun all sub => (through _ _).trans (congrArg f (stands.read all sub)),
    fun n room => (through _ _).trans (congrArg f (stands.inside n room))⟩

theorem Stands.both {b' : β} (one : Stands r table kept original) (two : Stands r' table b b') {f : α → β → γ}
    (through : ∀ depth a b, r₂ (.depths depth) (f a b) = f (r (.depths depth) a) (r' (.depths depth) b)) :
    Stands r₂ table (f kept b) (f original b') :=
  ⟨fun all sub => (through _ _ _).trans (congrArg₂ f (one.read all sub) (two.read all sub)),
    fun n room => (through _ _ _).trans (congrArg₂ f (one.inside n room) (two.inside n room))⟩

theorem DepthTable.depth_eq_none {place : Nat} (beyond : table.length ≤ place) : table.depth place = none := by
  rw [depth, List.getElem?_eq_none beyond, Option.join_none]

theorem DepthTable.depth_of_prefix {all : DepthTable} (sub : table <+: all) {place : Nat} (inside : place < table.length) :
    all.depth place = table.depth place := by
  obtain ⟨rest, rfl⟩ := sub
  rw [depth, depth, List.getElem?_append_left inside]

/-- What is tabulated stands for what it was. -/
def Tabulates (r : Relining → α → α) (a : α) (x : Tabulate α) : Prop :=
  ∀ table, table <+: (x table).2 ∧ Stands r (x table).2 (x table).1 a

section
variable {x : Tabulate α} {y : Tabulate β}

theorem Tabulates.pure (same : ∀ depth, r (.depths depth) a = a) : Tabulates r a (pure a) :=
  fun _ => ⟨List.prefix_rfl, .of_same same⟩

theorem Tabulates.map (tabulates : Tabulates r a x) {f : α → β}
    (through : ∀ depth a, r' (.depths depth) (f a) = f (r (.depths depth) a)) :
    Tabulates r' (f a) (do return f (← x)) :=
  fun table => ⟨(tabulates table).1, (tabulates table).2.map through⟩

theorem Tabulates.both (one : Tabulates r a x) (two : Tabulates r' b y) {f : α → β → γ}
    (through : ∀ depth a b, r₂ (.depths depth) (f a b) = f (r (.depths depth) a) (r' (.depths depth) b)) :
    Tabulates r₂ (f a b) (do return f (← x) (← y)) := by
  intro table
  obtain ⟨written, first⟩ := one table
  obtain ⟨written', second⟩ := two (x table).2
  exact ⟨written.trans written', (first.mono written').both second through⟩

theorem Tabulates.pair (one : Tabulates r a x) (two : Tabulates r' b y) :
    Tabulates (fun g p => (r g p.1, r' g p.2)) (a, b) (do return (← x, ← y)) := one.both two fun _ _ _ => rfl

theorem tabulates_option {part : α → Tabulate α} (parts : ∀ a, Tabulates r a (part a)) (o : Option α) :
    Tabulates (fun g => Option.map (r g)) o (tabulateOption part o) := by
  cases o with
  | none => exact .pure fun _ => rfl
  | some a => exact (parts a).map fun _ _ => rfl

theorem tabulates_list {part : α → Tabulate α} (parts : ∀ a, Tabulates r a (part a)) (as : List α) :
    Tabulates (fun g => List.map (r g)) as (tabulateList part as) := by
  induction as with
  | nil => exact .pure fun _ => rfl
  | cons a _ ih => exact (parts a).both ih fun _ _ _ => rfl

theorem tabulates_depth (depth : Option Nat) :
    Tabulates (fun g depth => depth.bind g.depth) depth (tabulateDepth depth) := by
  refine fun table => ⟨List.prefix_append _ _, ?_, fun n room => ?_⟩
  · rintro _ ⟨rest, rfl⟩
    simp [tabulateDepth, reading, Relining.depths, DepthTable.depth]
  · have inside : table.length < n := by simpa [tabulateDepth] using room
    simp [tabulateDepth, Relining.below, Relining.depths, inside]

theorem tabulates_ref (ref : NameRef) : Tabulates NameRef.reline ref ref.tabulate :=
  (tabulates_depth ref.depth).map fun _ _ => rfl

mutual

theorem Expr.tabulates : ∀ e : Expr, Tabulates Expr.reline e e.tabulate
  | .binary left _ right | .logical left _ right | .set left _ right => left.tabulates.both right.tabulates fun _ _ _ => rfl
  | .unary _ inner | .grouping inner | .get inner _ => inner.tabulates.map fun _ _ => rfl
  | .conditional test yes no =>
    test.tabulates.both (f := fun t p => Expr.conditional t p.1 p.2) (yes.tabulates.pair no.tabulates) fun _ _ _ => rfl
  | .literal _ | .missing => .pure fun _ => rfl
  | .var _ depth | .this _ depth | .super _ _ depth => (tabulates_depth depth).map fun _ _ => rfl
  | .assign _ value depth => value.tabulates.both (tabulates_depth depth) fun _ _ _ => rfl
  | .call callee _ args => callee.tabulates.both (Expr.tabulatesAll args) fun _ _ _ => rfl

theorem Expr.tabulatesAll : ∀ es : List Expr, Tabulates Expr.relineAll es (Expr.tabulateAll es)
  | [] => .pure fun _ => rfl
  | e :: rest => e.tabulates.both (Expr.tabulatesAll rest) fun _ _ _ => rfl

end

mutual

theorem Stmt.tabulates : ∀ s : Stmt, Tabulates Stmt.reline s s.tabulate
  | .expression value | .print value => value.tabulates.map fun _ _ => rfl
  | .var _ value | .returnValue _ value => (tabulates_option Expr.tabulates value).map fun _ _ => rfl
  | .block body => (Stmt.tabulatesAll body).map fun _ _ => rfl
  | .ifElse test body none | .whileLoop test body => test.tabulates.both body.tabulates fun _ _ _ => rfl
  | .ifElse test yes (some no) =>
    test.tabulates.both (f := fun t p => Stmt.ifElse t p.1 (some p.2)) (yes.tabulates.pair no.tabulates) fun _ _ _ => rfl
  | .breakLoop | .missing => .pure fun _ => rfl
  | .function decl => decl.tabulates.map fun _ _ => rfl
  | .classDef ⟨name, base, methods, own, traits⟩ =>
    (tabulates_option tabulates_ref base).both (f := fun b p => Stmt.classDef ⟨name, b, p.1, p.2.1, p.2.2⟩)
      ((FunDecl.tabulatesAll methods).pair
        ((FunDecl.tabulatesAll own).pair (tabulates_list tabulates_ref traits))) fun _ _ _ => rfl
  | .traitDef ⟨_, traits, methods⟩ =>
    (tabulates_list tabulates_ref traits).both (FunDecl.tabulatesAll methods) fun _ _ _ => rfl

theorem Stmt.tabulatesAll : ∀ body : List Stmt, Tabulates Stmt.relineAll body (Stmt.tabulateAll body)
  | [] => .pure fun _ => rfl
  | s :: rest => s.tabulates.both (Stmt.tabulatesAll rest) fun _ _ _ => rfl

theorem FunDecl.tabulates : ∀ f : FunDecl, Tabulates FunDecl.reline f f.tabulate
  | ⟨_, params, body⟩ => (Stmt.tabulatesAll body).map fun _ _ => by
    cases params <;> simp [FunDecl.reline, show Token.reline (.depths _) = id from rfl]

theorem FunDecl.tabulatesAll :
    ∀ fs : List FunDecl, Tabulates FunDecl.relineAll fs (FunDecl.tabulateAll fs)
  | [] => .pure fun _ => rfl
  | f :: rest => f.tabulates.both (FunDecl.tabulatesAll rest) fun _ _ _ => rfl

end

end

/-! ### Running a program -/

variable {fuel : Nat}

/-- Tables that agree on the first places do so on all names, if the others have no depth. -/
theorem DepthTable.looked_below {all : DepthTable} {n : Nat} (room : table.length ≤ n)
    (agree : ∀ place < n, all.depth place = table.depth place) (place : Option Nat) :
    (place.bind (Relining.below n).depth).bind all.depth = place.bind table.depth := by
  cases place with
  | none => rfl
  | some place =>
    by_cases first : place < n
    · simp [Relining.below, Relining.depths, Option.guard, first, agree place first]
    · have none := depth_eq_none (room.trans (Nat.le_of_not_lt first))
      simp [Relining.below, Relining.depths, Option.guard, first, none]

/-- What a program does with its depths in a table stands for what it does with the depths in their places. -/
theorem stands_interpretBy {m μ : Machine} (machines : Stands Machine.reline table m μ) {kept program : List Stmt}
    (programs : Stands Stmt.relineAll table kept program) :
    Stands Machine.relineRun table (m.interpretBy table.depth fuel kept) (μ.interpret fuel program) := by
  have agreeing {all : DepthTable} {n : Nat} (room : table.length ≤ n)
      (agree : ∀ place < n, all.depth place = table.depth place) :
      m.interpretBy all.depth fuel kept = Machine.relineRun (.below n) (m.interpretBy table.depth fuel kept) := by
    have runs := m.interpretBy_reline (g := .below n) rfl (DepthTable.looked_below room agree) fuel kept
    rwa [machines.inside n room, ← Stmt.relineAll_eq_map, programs.inside n room] at runs
  have inside {n : Nat} (room : table.length ≤ n) := (agreeing room fun _ _ => rfl).symm
  refine ⟨fun (all : DepthTable) sub => ?_, fun _ => inside⟩
  have longer := (agreeing (Nat.le_refl _) fun _ => DepthTable.depth_of_prefix sub).trans (inside (Nat.le_refl _))
  have runs := m.interpretBy_reline (g := reading all) rfl (fun _ => Option.bind_fun_some _) fuel kept
  rw [machines.read all sub, ← Stmt.relineAll_eq_map, programs.read all sub, Machine.interpretBy_some] at runs
  rw [← longer]
  exact runs.symm

end LoxLang
