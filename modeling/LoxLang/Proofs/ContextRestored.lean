import LoxLang.Proofs.Filling
import LoxLang.Proofs.Progress

/-!
Resolving leaves the context as it found it. However malformed a list of tokens is, what is read of it is resolved in any
scopes: no part of it is missing, and every scope that is closed was opened. Afterwards the innermost scope has the names
that are declared beside each other in it, and nothing else has changed.
-/

namespace LoxLang

namespace Grammar

theorem exists_parseProgram {tokens : List Token} (hasEnd : ∃ t ∈ tokens, t.kind = .endOfFile) :
    ∃ program, (parseProgram tokens).result = .ok program := by
  obtain ⟨finish, before, whole, size, inside⟩ := exists_take_firstEnd hasEnd
  rw [← size] at whole
  have within : before.length < tokens.length := by
    rw [congrArg List.length (split_at_end whole), List.length_append, List.length_cons]
    omega
  obtain ⟨program, complaints, ends⟩ := exists_program whole inside
  refine ⟨program, ?_⟩
  have start : (⟨tokens, []⟩ : State) = .reached tokens 0 [] := rfl
  rw [parseProgram, Reader.parse, EStateM.run, start, ends tokens tokens.length rfl within]

end Grammar

namespace Scope

/-- The scopes behind some statements, as the resolver keeps them. -/
def setting (body : List Stmt) (scopes : List Declared) : List Declared :=
  scopes.modifyHead (·.putAll ((body.flatMap declaredNames).map fun name => (name.lexeme, true)))

/-- Whatever the tokens are up to an end of the source, what is read of them is resolved without a fault in any scopes and
contexts. The contexts are as before, and so are the number of scopes and all scopes but the innermost one, in which the
declared names are set. -/
theorem resolving_restores_context {tokens : List Token} (hasEnd : ∃ t ∈ tokens, t.kind = .endOfFile) (st : State) :
    ∃ program resolved st', (parseProgram tokens).result = .ok program ∧
      (resolveStmts program).run st = .ok resolved st' ∧
      st'.function = st.function ∧ st'.classBody = st.classBody ∧ st'.scopes.size = st.scopes.size ∧
      st'.scopes.items.tail = st.scopes.items.tail ∧ st'.scopes.items = setting program st.scopes.items := by
  obtain ⟨program, read⟩ := Grammar.exists_parseProgram hasEnd
  have ran := runs_stmts program (Grammar.parsed_of_parseProgram read) st.view st rfl
  exact ⟨program, _, _, read, ran, rfl, rfl, List.length_modifyHead, List.tail_modifyHead, rfl⟩

/-! Tokens of which only the second declaration is read, in a trait and with two scopes around it. -/

def brokenTokens : List Token :=
  [⟨.kwVar, "var", .nil, 1⟩, ⟨.semicolon, ";", .nil, 1⟩, ⟨.leftBrace, "\x7b", .nil, 1⟩, ⟨.kwThis, "this", .nil, 1⟩,
    ⟨.semicolon, ";", .nil, 1⟩, ⟨.rightBrace, "\x7d", .nil, 1⟩, ⟨.endOfFile, "", .nil, 1⟩]

def deepState : State where
  scopes := ⟨[⟨[("a", true)]⟩, ⟨[("C", false)]⟩]⟩
  function := .initializer
  classBody := .trait
  errors := #[]
  resolutions := #[]

theorem resolving_restores_context_broken :
    (∃ t ∈ brokenTokens, t.kind = .endOfFile) ∧ (parseProgram brokenTokens).complaints.length = 1 ∧
    ∃ program resolved st', (parseProgram brokenTokens).result = .ok program ∧
      (resolveStmts program).run deepState = .ok resolved st' ∧
      st'.function = .initializer ∧ st'.classBody = .trait ∧ st'.scopes.size = 2 ∧
      st'.scopes.items.tail = [⟨[("C", false)]⟩] := by
  have hasEnd : ∃ t ∈ brokenTokens, t.kind = .endOfFile := by decide
  have complained : (parseProgram brokenTokens).complaints.length = 1 := by cbv
  obtain ⟨program, resolved, st', read, ran, context, inside, size, outer, -⟩ :=
    resolving_restores_context hasEnd deepState
  exact ⟨hasEnd, complained, program, resolved, st', read, ran, context, inside, size, outer⟩

end Scope
end LoxLang
