import LoxLang.Proofs.Effects
import LoxLang.Proofs.Resolving

/-!
Which programs leave the frames in sight as they were. Every statement but a class does so, however it ends. A class
that extends another puts one more frame in sight while it is made, and leaves it there when the traits it includes
cannot be taken up.
-/

namespace LoxLang

open Eval

variable {m m' : Machine} {source : Token → Prop}

namespace Machine

/-- The traits that names refer to globally, if all of them do. -/
def traits? (m : Machine) : List NameRef → Option (List Trait)
  | [] => some []
  | ref :: rest =>
    match m.lookup? globalFrames ref.name.lexeme with
    | some (.trait t) => (m.traits? rest).map (t :: ·)
    | _ => none

/-- The names refer globally to traits that share no method with each other, nor with what has been taken up. -/
def CanInclude (m : Machine) (taken : List String) (refs : List NameRef) : Prop :=
  ∃ traits, m.traits? refs = some traits ∧ (taken ++ traits.flatMap (·.methods.names)).Nodup

theorem traits?_congr (same : m'.frame 0 = m.frame 0) (refs : List NameRef) : m'.traits? refs = m.traits? refs := by
  induction refs with
  | nil => rfl
  | cons _ _ ih => simp only [traits?, lookup?_global, same, ih]

theorem canInclude_congr (same : m'.frame 0 = m.frame 0) (taken : List String) (refs : List NameRef) :
    m'.CanInclude taken refs ↔ m.CanInclude taken refs := by
  simp only [CanInclude, traits?_congr same]

/-- A class that extends another is left half made: the traits that it includes, with its name bound to nil, cannot be
taken up. -/
def Strands (m : Machine) (decl : ClassDecl) : Prop :=
  ∃ base c, decl.superclass = some base ∧ m.lookup? globalFrames base.name.lexeme = some (.classObject c) ∧
    ¬ (m.bind 0 decl.name.lexeme .nil).CanInclude [] decl.traits

/-- A frame with `super` is in sight before the global one. -/
def LeftInSight (m : Machine) : Prop :=
  ∃ id, id ≠ 0 ∧ m.scope = id :: globalFrames ∧ (m.frame id).contains superName = true

end Machine

namespace Eval

theorem readTrait_global (m : Machine) (ref : NameRef) (unresolved : ref.depth = none) :
    (∃ t, m.lookup? globalFrames ref.name.lexeme = some (.trait t) ∧ readTrait ref m = .ok t m) ∨
      (∀ t, m.lookup? globalFrames ref.name.lexeme ≠ some (.trait t)) ∧ ∃ ending, readTrait ref m = .error ending m := by
  simp only [readTrait, bind, EStateM.bind, unresolved, readName_global]
  cases bound : m.lookup? globalFrames ref.name.lexeme with
  | none => exact .inr ⟨fun t => by simp, _, rfl⟩
  | some value =>
    cases value with
    | trait t => exact .inl ⟨t, rfl, rfl⟩
    | _ => exact .inr ⟨fun t => by simp, _, rfl⟩

theorem traits?_eq_some_iff {refs : List NameRef} (unresolved : ∀ ref ∈ refs, ref.depth = none) {traits : List Trait} :
    m.traits? refs = some traits ↔ ReadTraits m refs traits := by
  induction refs generalizing traits with
  | nil => simp [Machine.traits?, ReadTraits, eq_comm]
  | cons ref rest ih =>
    obtain ⟨here, unresolved⟩ := List.forall_mem_cons.mp unresolved
    simp only [Machine.traits?, ReadTraits, List.forall₂_cons_left_iff]
    rcases readTrait_global m ref here with ⟨t, bound, read⟩ | ⟨other, ending, read⟩
    · simp [bound, read, ih unresolved, ReadTraits, eq_comm]
    · split
      · rename_i t bound
        exact absurd bound (other t)
      · simp [read]

theorem canInclude_iff {refs : List NameRef} (unresolved : ∀ ref ∈ refs, ref.depth = none) :
    m.CanInclude [] refs ↔ ∃ traits, ReadTraits m refs traits ∧ (traits.flatMap (·.methods.names)).Nodup := by
  simp only [Machine.CanInclude, traits?_eq_some_iff unresolved, List.nil_append]

/-! ### Declaring a class at the top -/

theorem readSuperclass_spec (m : Machine) {superclass : Option NameRef}
    (unresolved : ∀ base, superclass = some base → base.depth = none) :
    (superclass = none ∧ readSuperclass superclass m = .ok none m) ∨
      (∃ base c, superclass = some base ∧ m.lookup? globalFrames base.name.lexeme = some (.classObject c) ∧
        readSuperclass superclass m = .ok (some c) m) ∨
      ((∀ base c, superclass = some base → m.lookup? globalFrames base.name.lexeme ≠ some (.classObject c)) ∧
        ∃ ending, readSuperclass superclass m = .error ending m) := by
  cases superclass with
  | none => exact .inl ⟨rfl, rfl⟩
  | some base =>
    refine .inr ?_
    simp only [readSuperclass, unresolved base rfl, bind, EStateM.bind, readName_global]
    cases bound : m.lookup? globalFrames base.name.lexeme with
    | none =>
      refine .inr ⟨?_, _, rfl⟩
      rintro _ c ⟨⟩
      simp [bound]
    | some value =>
      cases value with
      | classObject c => exact .inl ⟨base, c, rfl, bound, rfl⟩
      | _ =>
        refine .inr ⟨?_, _, rfl⟩
        rintro _ c ⟨⟩
        simp [bound]

/-- After a class has been declared at the top, the global frame is in sight alone, unless the class was left half
made. Then the new frame with `super` has stayed in sight. -/
theorem declareClass_scope (m : Machine) (decl : ClassDecl) (atTop : m.scope = globalFrames)
    (base : ∀ ref, decl.superclass = some ref → ref.depth = none) (traits : ∀ ref ∈ decl.traits, ref.depth = none) :
    (¬ m.Strands decl ∧ ((declareClass decl).after m).scope = globalFrames) ∨
      (m.Strands decl ∧ ((declareClass decl).after m).LeftInSight ∧
        ∃ ending m', declareClass decl m = .error ending m') := by
  let m₁ := m.bind 0 decl.name.lexeme .nil
  have defining : m.defining decl.name.lexeme .nil = m₁ := by
    simp only [Machine.defining, atTop]
    rfl
  have restored {c : Class} {m' : Machine} (ends : declareClass decl m =
      assignNamed m.scope decl.name (.classObject c) { m' with scope := m.scope }) :
      ((declareClass decl).after m).scope = globalFrames := by
    rw [after, ends, ← after]
    exact ((step_assignNamed enclosing_scope.outer m.scope decl.name (.classObject c)).keeps _).trans atTop
  rcases readSuperclass_spec m base with ⟨none_, read⟩ | ⟨ref, c, isBase, bound, read⟩ | ⟨noClass, ending, read⟩
  · have notStranded : ¬ m.Strands decl := by
      rintro ⟨ref, _, isBase, _⟩
      simp [none_] at isBase
    refine .inl ⟨notStranded, ?_⟩
    rcases declareClass_of_read read with ⟨ending, m', failed, ends⟩ | ⟨c, m', -, ends⟩
    · have kept := (step_makeClass enclosing_scope.outer decl none).keeps.of_error failed
      rw [after, ends, kept]
      exact (m.scope_defining _ _).trans atTop
    · exact restored ends
  · let m₂ := m.classSite decl (some c)
    have inside : 0 < m₁.frames.size := by
      rw [Machine.size_bind]
      rw [Machine.lookup?_global] at bound
      have there : (m.frame 0).contains ref.name.lexeme = true := by simp [Bindings.contains, bound]
      exact Machine.lt_size_of_contains there
    have site : m₂ = m₁.entering (some c) := congrArg (·.entering (some c)) defining
    have global : m₂.frame 0 = m₁.frame 0 := site ▸ Machine.frame_push_of_lt inside _
    have can := (Machine.canInclude_congr global [] decl.traits).symm.trans (canInclude_iff traits)
    rcases makeClass_cases m₂ decl (some c) with ⟨all, reads, distinct, made⟩ | ⟨_, -, failed, cannot⟩
    · rcases declareClass_of_read read with ⟨_, _, failed, -⟩ | ⟨_, _, -, ends⟩
      · cases made.symm.trans failed
      · refine .inl ⟨?_, restored ends⟩
        rintro ⟨_, _, _, _, cannot⟩
        exact cannot (can.mpr ⟨all, reads, distinct⟩)
    · rcases declareClass_of_read read with ⟨ending, m', failed', ends⟩ | ⟨_, _, made, -⟩
      · cases failed.symm.trans failed'
        refine .inr ⟨⟨ref, c, isBase, bound, fun included => ?_⟩, ?_, _, _, ends⟩
        · obtain ⟨all, reads, distinct⟩ := can.mp included
          exact cannot all reads distinct
        · rw [after, ends]
          refine ⟨m₁.frames.size, Nat.ne_of_gt inside, ?_, ?_⟩
          · show m₂.scope = _
            rw [site, ← atTop]
            rfl
          · have pushed : m₂.frame m₁.frames.size = Bindings.empty.put superName (.classObject c) :=
              site ▸ Machine.frame_push_size m₁ _
            show (m₂.frame m₁.frames.size).contains superName = true
            rw [pushed, Bindings.contains_put]
            exact .inl rfl
      · cases failed.symm.trans made
  · have ends : declareClass decl m = .error ending m := bind_of_error read
    refine .inl ⟨?_, by rw [after, ends, atTop]⟩
    rintro ⟨ref, c, isBase, bound, -⟩
    exact noClass ref c isBase bound

/-! ### Statements and programs -/

theorem branch_of_parsed {s t : Stmt} (parsed : s.Parsed source) (among : t ∈ s.branches) :
    t.isPlain = true ∧ t.Parsed source := by
  cases s with
  | ifElse _ _ no =>
    cases no with
    | none =>
      obtain rfl := List.mem_singleton.mp among
      exact parsed.2
    | some =>
      rcases List.mem_cons.mp among with rfl | among
      · exact parsed.2.1
      · obtain rfl := List.mem_singleton.mp among
        exact parsed.2.2
  | whileLoop =>
    obtain rfl := List.mem_singleton.mp among
    exact parsed.2
  | _ => cases among

/-- Every statement but a class leaves the frames in sight as they were, however it ends; by induction on the number of
layers. -/
theorem keeps_scope_execute (fuel : Nat) {s : Stmt} (parsed : s.Parsed source) (noClass : ∀ decl, s ≠ .classDef decl) :
    Keeps (fun m m' => m'.scope = m.scope) (execute fuel s) := by
  induction fuel generalizing s with
  | zero => exact keeps_throw enclosing_scope.outer _
  | succ fuel ih =>
    have composed : Composed (fun m m' => m'.scope = m.scope) { Direct := fun point => ∀ t, point = .exec t → t ∈ s.branches }
        fun p => execStep p s :=
      composed_execStep enclosing_scope.outer s (fun decl isClass => absurd isClass (noClass decl)) (by simp)
        (fun e _ t isStmt => nomatch isStmt) (fun t among u same => Point.exec.inj same ▸ among)
    let parts : Parts := ⟨fuel, evaluate fuel, execute fuel⟩
    refine (composed.keepsOn (p := parts) enclosing_scope trivial (keeps_scope_evaluate fuel) ?_ fun _ _ => trivial).keeps
    intro t direct
    obtain ⟨plain, inside⟩ := branch_of_parsed parsed (direct t rfl)
    exact (ih inside fun decl isClass => by simp [isClass, Stmt.isPlain] at plain).on

/-- A class of the program is left half made, after everything before it has been run. -/
def Stranded (fuel : Nat) (program : List Stmt) (m : Machine) : Prop :=
  ∃ before decl rest m', program = before ++ .classDef decl :: rest ∧ 0 < fuel ∧
    runAll (execute fuel) before m = .ok () m' ∧ m'.Strands decl

theorem stranded_nil (fuel : Nat) (m : Machine) : ¬ Stranded fuel [] m := by
  rintro ⟨before, decl, rest, m', split, -⟩
  simp at split

theorem stranded_cons (fuel : Nat) (s : Stmt) (rest : List Stmt) (m : Machine) :
    Stranded fuel (s :: rest) m ↔ (∃ decl, s = .classDef decl ∧ 0 < fuel ∧ m.Strands decl) ∨
      ∃ m', execute fuel s m = .ok () m' ∧ Stranded fuel rest m' := by
  constructor
  · rintro ⟨before, decl, others, m', split, positive, ran, strands⟩
    cases before with
    | nil =>
      obtain ⟨rfl, rfl⟩ := List.cons.inj split
      obtain ⟨-, rfl⟩ : () = () ∧ m = m' := by simpa [runAll, pure, EStateM.pure] using ran
      exact .inl ⟨decl, rfl, positive, strands⟩
    | cons _ before =>
      obtain ⟨rfl, rfl⟩ := List.cons.inj split
      cases ends : execute fuel s m with
      | error => cases (bind_of_error ends).symm.trans ran
      | ok _ m₁ => exact .inr ⟨m₁, rfl, before, decl, others, m', rfl, positive, (bind_of_ok ends).symm.trans ran, strands⟩
  · rintro (⟨decl, rfl, positive, strands⟩ | ⟨m₁, ends, before, decl, others, m', rfl, positive, ran, strands⟩)
    · exact ⟨[], decl, rest, m, rfl, positive, rfl, strands⟩
    · exact ⟨s :: before, decl, others, m', rfl, positive, (bind_of_ok ends).trans ran, strands⟩

/-- The class that a class at the top extends is looked up globally. -/
def GlobalBases (program : List Stmt) : Prop :=
  ∀ decl base, .classDef decl ∈ program → decl.superclass = some base → base.depth = none

/-- One statement at the top leaves the global frame in sight alone, unless it is a class that is left half made. -/
theorem execute_scope (fuel : Nat) {s : Stmt} (m : Machine) (atTop : m.scope = globalFrames)
    (parsed : s.Parsed source) (bases : GlobalBases [s]) :
    ((¬ ∃ decl, s = .classDef decl ∧ 0 < fuel ∧ m.Strands decl) ∧ ((execute fuel s).after m).scope = globalFrames) ∨
      ((∃ decl, s = .classDef decl ∧ 0 < fuel ∧ m.Strands decl) ∧ ((execute fuel s).after m).LeftInSight ∧
        ∃ ending m', execute fuel s m = .error ending m') := by
  by_cases isClass : ∃ decl, s = .classDef decl
  · obtain ⟨decl, rfl⟩ := isClass
    cases fuel with
    | zero => exact .inl ⟨fun ⟨_, _, positive, _⟩ => absurd positive (Nat.lt_irrefl 0), atTop⟩
    | succ fuel =>
      have base : ∀ ref, decl.superclass = some ref → ref.depth = none := fun ref => bases decl ref (by simp)
      have traits : ∀ ref ∈ decl.traits, ref.depth = none := by
        cases decl
        exact parsed.2.1
      rcases declareClass_scope m decl atTop base traits with ⟨complete, restored⟩ | ⟨strands, inSight, ends⟩
      · refine .inl ⟨?_, restored⟩
        rintro ⟨_, ⟨⟩, -, strands⟩
        exact complete strands
      · exact .inr ⟨⟨decl, rfl, Nat.succ_pos fuel, strands⟩, inSight, ends⟩
  · have noClass : ∀ decl, s ≠ .classDef decl := fun decl same => isClass ⟨decl, same⟩
    exact .inl ⟨fun ⟨decl, same, _⟩ => noClass decl same, (keeps_scope_execute fuel parsed noClass m).trans atTop⟩

theorem runAll_scope (fuel : Nat) {program : List Stmt} (m : Machine) (atTop : m.scope = globalFrames)
    (parsed : Stmt.AllParsed source program) (bases : GlobalBases program) :
    (¬ Stranded fuel program m ∧ ((runAll (execute fuel) program).after m).scope = globalFrames) ∨
      (Stranded fuel program m ∧ ((runAll (execute fuel) program).after m).LeftInSight) := by
  induction program generalizing m with
  | nil => exact .inl ⟨stranded_nil fuel m, atTop⟩
  | cons s _ ih =>
    have first := execute_scope fuel m atTop parsed.1 fun decl base member =>
      bases decl base (List.mem_singleton.mp member ▸ List.mem_cons_self)
    rw [stranded_cons, runAll]
    cases ends : execute fuel s m with
    | error =>
      rw [after_bind_of_error ends]
      rw [after, ends] at first
      rcases first with ⟨complete, restored⟩ | ⟨strands, inSight, -⟩
      · exact .inl ⟨by simpa using complete, restored⟩
      · exact .inr ⟨.inl strands, inSight⟩
    | ok _ m₁ =>
      rw [after_bind_of_ok ends]
      rw [after, ends] at first
      rcases first with ⟨complete, restored⟩ | ⟨-, -, _, _, failed⟩
      · have others := ih m₁ restored parsed.2 fun decl base member => bases decl base (List.mem_cons_of_mem s member)
        simpa [complete] using others
      · cases failed

end Eval

namespace Eval

theorem execute_var {layers : Nat} {e : Expr} {value : Value} (name : Token)
    (evaluated : evaluate layers e m = .ok value m') :
    (execute (layers + 1) (.var name (some e))).after m = (define name.lexeme value).after m' :=
  after_bind_of_ok evaluated

/-- A variable that is declared while only the global frame is in sight can be read globally. -/
theorem global_var {layers : Nat} {e : Expr} {value : Value} (name : Token) (atTop : m.scope = globalFrames)
    (hasGlobal : 0 < m.frames.size) (evaluated : evaluate layers e m = .ok value m') :
    ((execute (layers + 1) (.var name (some e))).after m).lookup? globalFrames name.lexeme = some value := by
  have atTop' : m'.scope = globalFrames := ((keeps_scope_evaluate layers e).of_ok evaluated).trans atTop
  have inside : 0 < m'.frames.size := Nat.lt_of_lt_of_le hasGlobal ((grows_evaluate layers e).of_ok evaluated).size
  have chain : scope m' = .ok globalFrames m' := by
    rw [← atTop']
    rfl
  have defined : (define name.lexeme value).after m' = m'.bind 0 name.lexeme value := after_bind_of_ok chain
  rw [execute_var name evaluated, defined, Machine.lookup?_global, Machine.frame_bind_self inside,
    Bindings.get?_put_self]

/-- A variable that is declared while another frame is in sight first is not seen globally: reading it globally gives
what it gave before. -/
theorem hidden_var {id : FrameId} {chain : Frames} (name : Token) (literal : Literal)
    (inSight : m.scope = id :: chain) (isLocal : id ≠ 0) :
    ((execute 2 (.var name (some (.literal literal)))).after m).lookup? globalFrames name.lexeme =
      m.lookup? globalFrames name.lexeme := by
  have evaluated : evaluate 1 (.literal literal) m = .ok (.ofLiteral literal) m := rfl
  have read : scope m = .ok (id :: chain) m := by
    rw [← inSight]
    rfl
  have defined : (define name.lexeme (.ofLiteral literal)).after m = m.bind id name.lexeme (.ofLiteral literal) :=
    after_bind_of_ok read
  rw [execute_var name evaluated, defined, Machine.lookup?_global, Machine.lookup?_global,
    Machine.frame_bind_of_ne isLocal.symm]

end Eval

namespace Machine

/-- Every variable that is declared next at the top can be read globally. -/
def ShowsVariables (m : Machine) : Prop :=
  ∀ layers e value m' (name : Token), evaluate layers e m = .ok value m' →
    ((execute (layers + 1) (.var name (some e))).after m).lookup? globalFrames name.lexeme = some value

theorem LeftInSight.hides (left : m.LeftInSight) : ¬ m.ShowsVariables := by
  obtain ⟨id, isLocal, inSight, -⟩ := left
  intro shows
  have reads (literal : Literal) : m.lookup? globalFrames "" = some (.ofLiteral literal) := by
    rw [← hidden_var ⟨.identifier, "", .nil, 0⟩ literal inSight isLocal]
    exact shows 1 (.literal literal) _ m _ rfl
  exact nomatch (reads .nil).symm.trans (reads (.bool true))

theorem frames_interpret (m : Machine) (fuel : Nat) (program : List Stmt) :
    (m.interpret fuel program).1.scope = ((runAll (execute fuel) program).after m).scope ∧
      (m.interpret fuel program).1.frames = ((runAll (execute fuel) program).after m).frames := by
  simp only [interpret, perform, EStateM.run, after]
  cases runAll (execute fuel) program m with
  | ok => exact ⟨rfl, rfl⟩
  | error ending => cases ending <;> exact ⟨rfl, rfl⟩

/-- A run of a program from the top ends, however it ends, with the global frame in sight alone, exactly if no class
of the program was left half made; and then exactly is every variable that is declared next seen globally. Otherwise a
frame with `super` has stayed in sight. -/
theorem scope_restored_iff_not_stranded {tokens : List Token} {program resolved : List Stmt} {found : Scope.State}
    (parsed : (parseProgram tokens).result = .ok program)
    (accepted : (Scope.resolveStmts program).run (.start []) = .ok resolved found)
    (m : Machine) (fuel : Nat) (atTop : m.scope = globalFrames) (hasGlobal : 0 < m.frames.size) :
    ((m.interpret fuel resolved).1.scope = globalFrames ↔ ¬ Eval.Stranded fuel resolved m) ∧
      ((m.interpret fuel resolved).1.ShowsVariables ↔ ¬ Eval.Stranded fuel resolved m) ∧
      (Eval.Stranded fuel resolved m → (m.interpret fuel resolved).1.LeftInSight) := by
  have shape := Scope.resolved_program (Grammar.parsed_of_parseProgram parsed) accepted
  have spec := Eval.runAll_scope fuel m atTop shape.parsed shape.global
  obtain ⟨sameScope, sameFrames⟩ := frames_interpret m fuel resolved
  rcases spec with ⟨complete, restored⟩ | ⟨stranded, left⟩
  · have inside : 0 < (m.interpret fuel resolved).1.frames.size := by
      rw [sameFrames]
      have grows := Eval.keeps_runAll Eval.lasting_grows (Eval.grows_execute fuel) resolved m
      exact Nat.lt_of_lt_of_le hasGlobal grows.size
    have atEnd := sameScope.trans restored
    exact ⟨iff_of_true atEnd complete,
      iff_of_true (fun _ _ _ _ name evaluated => Eval.global_var name atEnd inside evaluated) complete,
      fun stranded => absurd stranded complete⟩
  · have inSight : (m.interpret fuel resolved).1.LeftInSight := by
      obtain ⟨id, isLocal, chain, hasSuper⟩ := left
      refine ⟨id, isLocal, sameScope.trans chain, ?_⟩
      rwa [frame, sameFrames, ← frame]
    have moved : (m.interpret fuel resolved).1.scope ≠ globalFrames := by
      obtain ⟨id, isLocal, chain, -⟩ := inSight
      rw [chain]
      simp [globalFrames]
    exact ⟨iff_of_false moved (not_not_intro stranded), iff_of_false inSight.hides (not_not_intro stranded),
      fun _ => inSight⟩

/-- A token of the first line that denotes no value. -/
def word (kind : TokenKind) (lexeme : String) : Token := ⟨kind, lexeme, .nil, 1⟩

/-- A class `A`, and a class `B` that extends it and includes it as if it were a trait. -/
def halfMadeTokens : List Token :=
  [word .kwClass "class", word .identifier "A", word .leftBrace "\x7b", word .rightBrace "\x7d",
   word .kwClass "class", word .identifier "B", word .less "<", word .identifier "A", word .kwWith "with",
   word .identifier "A", word .leftBrace "\x7b", word .rightBrace "\x7d", word .endOfFile ""]

def halfMade : List Stmt :=
  let a := word .identifier "A"
  [.classDef ⟨a, none, [], [], []⟩, .classDef ⟨word .identifier "B", some ⟨a, none⟩, [], [], [⟨a, none⟩]⟩]

theorem stranded_halfMade : Stranded 1 halfMade (blank {} {}) := by
  refine ⟨halfMade.take 1, _, [], _, rfl, Nat.one_pos, rfl, ⟨word .identifier "A", none⟩, _, rfl, rfl, ?_⟩
  rintro ⟨traits, found, -⟩
  exact nomatch found

theorem scope_not_restored_halfMade :
    (parseProgram halfMadeTokens).result = .ok halfMade ∧
      (Scope.resolveStmts halfMade).run (.start []) = .ok halfMade (.start []) ∧
      (blank {} {}).scope = globalFrames ∧ 0 < (blank {} {}).frames.size ∧
      ((blank {} {}).interpret 1 halfMade).1.LeftInSight ∧ ¬ ((blank {} {}).interpret 1 halfMade).1.ShowsVariables :=
  have spec := scope_restored_iff_not_stranded (show (parseProgram halfMadeTokens).result = .ok _ from rfl) rfl (blank {} {}) 1 rfl
    Nat.one_pos
  ⟨rfl, rfl, rfl, Nat.one_pos, spec.2.2 stranded_halfMade, fun shows => spec.2.1.mp shows stranded_halfMade⟩

end Machine
end LoxLang
