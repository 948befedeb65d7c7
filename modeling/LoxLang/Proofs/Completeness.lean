import LoxLang.Proofs.Soundness

/-!
What is in the grammar is read. A reader that is given tokens written for a phrase, and behind them a token that does
not go on with the phrase, returns exactly that phrase, takes exactly its tokens and has no complaint. Layers that group
to the left are read by a loop, so for them the statement says where the loop stands when the phrase has been read.
-/

namespace LoxLang.Grammar

variable {kinds : List TokenKind} {t dot left equals : Token} {kind : TokenKind} {outer : Layer} {k n m : Nat}
  {may : Token → Prop} {vs us names ts : List Token}

variable {α β : Type}

theorem nextIs_cons (kind : TokenKind) (t : Token) (rest : List Token) (cs : List Complaint) :
    nextIs kind ⟨t :: rest, cs⟩ = .ok (decide (t.kind = kind)) ⟨t :: rest, cs⟩ := rfl

theorem orRecover_of_ok {r : Reader α} {s s' : State} {a : α} (h : r s = .ok a s') :
    orRecover r s = .ok (some a) s' := by
  simp only [orRecover, tryCatch, tryCatchThe, MonadExceptOf.tryCatch, EStateM.tryCatch, Functor.map, EStateM.map, h]

/-! ### Readers that take tokens -/

/-- Where at most `n` tokens are left, the reader takes the tokens before one that may follow them. It yields the value
and has no complaint. -/
def Takes (may : Token → Prop) (n : Nat) (r : Reader α) (ts : List Token) (a : α) : Prop :=
  ∀ t rest cs, ts.length + rest.length < n → may t → r ⟨ts ++ t :: rest, cs⟩ = .ok a ⟨t :: rest, cs⟩

theorem append_eq_headD (ts : List Token) (t : Token) (rest : List Token) :
    ts ++ t :: rest = ts.headD t :: (ts ++ t :: rest).tail := by
  cases ts <;> rfl

section Takes

variable {may before : Token → Prop} {m n : Nat} {x : Reader α} {f : α → Reader β} {us vs : List Token} {a : α} {b : β}
  {t : Token} {kind : TokenKind} {kinds : List TokenKind}

theorem takes_zero : Takes may 0 x us a := by
  intro t rest cs enough
  exact absurd enough (Nat.not_lt_zero _)

theorem takes_pure : Takes may n (pure a) [] a := fun _ _ _ _ _ => rfl

theorem Takes.mono (takes : Takes may n x us a) (fewer : m ≤ n) : Takes may m x us a :=
  fun t rest cs enough => takes t rest cs (Nat.lt_of_lt_of_le enough fewer)

theorem Takes.imp (takes : Takes may n x us a) (allowed : ∀ t, before t → may t) : Takes before n x us a :=
  fun t rest cs enough follows => takes t rest cs enough (allowed t follows)

theorem Takes.bind (first : Takes before n x us a) (next : Takes may (n - us.length) (f a) vs b)
    (follows : ∀ t, may t → before (vs.headD t)) : Takes may n (x >>= f) (us ++ vs) b := by
  intro t rest cs enough allowed
  rw [List.length_append] at enough
  have read := first (vs.headD t) (vs ++ t :: rest).tail cs (by simp; omega) (follows t allowed)
  rw [← append_eq_headD] at read
  rw [List.append_assoc]
  exact (andThen read).trans (next t rest cs (by omega) allowed)

theorem Takes.bind_nil (first : Takes before n x us a) (next : Takes may (n - us.length) (f a) [] b)
    (follows : ∀ t, may t → before t) : Takes may n (x >>= f) us b := by
  simpa using first.bind next follows

theorem Takes.last {g : α → β} (takes : Takes may n x us a) : Takes may n (x >>= fun a => pure (g a)) us (g a) :=
  takes.bind_nil takes_pure fun _ => id

theorem Takes.taken {f : Option Token → Reader β} (member : t.kind ∈ kinds)
    (next : Takes may (n - 1) (f (some t)) vs b) : Takes may n (takeAny? kinds >>= f) (t :: vs) b := by
  intro last rest cs enough allowed
  rw [List.length_cons] at enough
  exact (andThen (takeAny?_of_mem member _ cs)).trans (next last rest cs (by omega) allowed)

theorem Takes.keyword {f : Option Token → Reader β} (is : t.kind = kind) (member : kind ∈ kinds)
    (next : Takes may (n - 1) (f (some t)) vs b) : Takes may n (takeAny? kinds >>= f) (t :: vs) b :=
  .taken (is ▸ member) next

theorem Takes.expect {what : Missing} {f : Token → Reader β} (is : t.kind = kind)
    (next : Takes may (n - 1) (f t) vs b) : Takes may n (expect kind what >>= f) (t :: vs) b := by
  intro last rest cs enough allowed
  rw [List.length_cons] at enough
  have read : Grammar.expect kind what ⟨t :: (vs ++ last :: rest), cs⟩ = .ok t ⟨vs ++ last :: rest, cs⟩ :=
    andThen (takeAny?_of_mem (by simp [is]) _ cs)
  exact (andThen read).trans (next last rest cs (by omega) allowed)

theorem Takes.passed {f : Option Token → Reader β} (others : ∀ t, may t → (vs.headD t).kind ∉ kinds)
    (next : Takes may n (f none) vs b) : Takes may n (takeAny? kinds >>= f) vs b := by
  intro t rest cs enough allowed
  have skipped := takeAny?_of_not_mem (others t allowed) (vs ++ t :: rest).tail cs
  rw [← append_eq_headD] at skipped
  exact (andThen skipped).trans (next t rest cs enough allowed)

theorem Takes.nextIs {f : Bool → Reader β} {found : Bool} (is : ∀ t, may t → decide ((vs.headD t).kind = kind) = found)
    (next : Takes may n (f found) vs b) : Takes may n (nextIs kind >>= f) vs b := by
  intro t rest cs enough allowed
  have looked : Grammar.nextIs kind ⟨vs ++ t :: rest, cs⟩ = .ok found ⟨vs ++ t :: rest, cs⟩ := by
    rw [append_eq_headD, ← is t allowed]
    exact nextIs_cons ..
  exact (andThen looked).trans (next t rest cs enough allowed)

end Takes

/-- The first token is of one of the kinds. -/
def Begins (kinds : List TokenKind) (ts : List Token) : Prop := ∃ t us, ts = t :: us ∧ t.kind ∈ kinds

namespace Begins

variable {kinds : List TokenKind} {ts : List Token} (begins : Begins kinds ts)
include begins

theorem mono {more : List TokenKind} (sub : kinds ⊆ more) : Begins more ts := by
  obtain ⟨t, us, rfl, member⟩ := begins
  exact ⟨t, us, rfl, sub member⟩

theorem append (us : List Token) : Begins kinds (ts ++ us) := by
  obtain ⟨t, vs, rfl, member⟩ := begins
  exact ⟨t, vs ++ us, rfl, member⟩

theorem length_pos : 0 < ts.length := by
  obtain ⟨t, us, rfl, -⟩ := begins
  simp

theorem apart {others : List TokenKind} (t : Token) (apart : ∀ kind ∈ kinds, kind ∉ others) :
    (ts.headD t).kind ∉ others := by
  obtain ⟨first, us, rfl, member⟩ := begins
  exact apart _ member

theorem isnt (t : Token) (apart : ∀ other ∈ kinds, other ≠ kind) : decide ((ts.headD t).kind = kind) = false := by
  obtain ⟨first, us, rfl, member⟩ := begins
  exact decide_eq_false (apart _ member)

end Begins

/-! ### Where an expression ends -/

/-- The layer at which a token goes on with the expression before it. -/
def continues? : TokenKind → Option Layer
  | .question => some .conditional
  | .equal => some .assignment
  | .kwOr => some .disjunction
  | .kwAnd => some .conjunction
  | .bangEqual | .equalEqual => some .equality
  | .greater | .greaterEqual | .less | .lessEqual => some .comparison
  | .minus | .plus => some .term
  | .slash | .star | .modulo => some .factor
  | .leftParen | .dot => some .call
  | _ => none

namespace Layer

/-- How many layers are looser. -/
def tightness : Layer → Nat
  | conditional => 0
  | assignment => 1
  | disjunction => 2
  | conjunction => 3
  | equality => 4
  | comparison => 5
  | term => 6
  | factor => 7
  | unary => 8
  | call => 9
  | primary => 10

/-- A token at which an expression of the layer is over. -/
def Ends (layer : Layer) (t : Token) : Prop :=
  ∀ at_, continues? t.kind = some at_ → at_.tightness < layer.tightness

/-- A token that leaves a tighter expression as it is. It can go on with an expression of the layer itself where the
layer groups to the left. -/
def Borders (layer : Layer) (t : Token) : Prop :=
  match layer with
  | conditional | assignment => layer.Ends t
  | _ => ∀ at_, continues? t.kind = some at_ → at_.tightness ≤ layer.tightness

def starts : Layer → List TokenKind
  | call | primary => primaryKinds
  | _ => .bang :: .minus :: primaryKinds

def reader (nested : Reader Expr) (k : Nat) : Layer → Reader Expr
  | conditional => Grammar.conditional nested k
  | assignment => Grammar.assignment nested k
  | disjunction => Grammar.disjunction nested k
  | conjunction =>
    Grammar.unary nested k |> layer .binary factor.operators k |> layer .binary term.operators k
      |> layer .binary comparison.operators k |> layer .binary equality.operators k
      |> layer .logical conjunction.operators k
  | equality =>
    Grammar.unary nested k |> layer .binary factor.operators k |> layer .binary term.operators k
      |> layer .binary comparison.operators k |> layer .binary equality.operators k
  | comparison =>
    Grammar.unary nested k |> layer .binary factor.operators k |> layer .binary term.operators k
      |> layer .binary comparison.operators k
  | term => Grammar.unary nested k |> layer .binary factor.operators k |> layer .binary term.operators k
  | factor => Grammar.unary nested k |> layer .binary factor.operators k
  | unary => Grammar.unary nested k
  | call => do suffixes nested k (← Grammar.primary nested)
  | primary => Grammar.primary nested

/-- The layers that group their operands to the left. -/
def Grouped (layer : Layer) : Prop := layer.operators ≠ []

/-- What is still to be read behind an expression of the layer, with the bound `j` for the loop. -/
def resume (nested : Reader Expr) (k j : Nat) (layer : Layer) (e : Expr) : Reader Expr :=
  match layer, layer.inner? with
  | call, _ => suffixes nested j e
  | outer, some inner =>
    if outer.operators = [] then pure e else leftGrouped outer.join outer.operators (inner.reader nested k) j e
  | _, none => pure e

theorem resume_of_grouped {inner : Layer} (grouped : outer.Grouped) (next : outer.inner? = some inner)
    (nested : Reader Expr) (k j : Nat) (e : Expr) :
    resume nested k j outer e = leftGrouped outer.join outer.operators (inner.reader nested k) j e := by
  cases outer with
  | conditional | assignment | unary | call | primary => exact absurd rfl grouped
  | disjunction | conjunction | equality | comparison | term | factor => cases next; rfl

theorem tightness_inner {inner : Layer} (next : outer.inner? = some inner) : inner.tightness = outer.tightness + 1 := by
  cases outer <;> cases next <;> rfl

theorem Ends.inner {inner : Layer} (h : outer.Ends t) (next : outer.inner? = some inner) : inner.Ends t := by
  intro at_ continued
  have := h at_ continued
  rw [tightness_inner next]
  omega

theorem Ends.borders {layer : Layer} (h : layer.Ends t) : layer.Borders t := by
  unfold Borders
  split
  · exact h
  · exact h
  · exact fun at_ continued => Nat.le_of_lt (h at_ continued)

theorem continues?_of_mem_operators {layer : Layer} (member : kind ∈ layer.operators) :
    continues? kind = some layer := by
  cases layer <;> simp [operators] at member <;> rcases member with rfl | rfl | rfl | rfl <;> rfl

theorem Ends.not_mem {layer : Layer} (h : layer.Ends t) (here : ∀ kind ∈ kinds, continues? kind = some layer) :
    t.kind ∉ kinds := by
  intro member
  exact absurd (h layer (here _ member)) (Nat.lt_irrefl _)

/-- Behind an operand of a layer that groups to the left stands an operator of the layer, or a looser one. -/
theorem Borders.inner_ends {inner : Layer} (grouped : outer.Grouped) (next : outer.inner? = some inner)
    (h : outer.Borders t) : inner.Ends t := by
  intro at_ continued
  rw [tightness_inner next]
  cases outer with
  | conditional | assignment | unary | call | primary => exact absurd rfl grouped
  | disjunction | conjunction | equality | comparison | term | factor => exact Nat.lt_succ_of_le (h at_ continued)

theorem borders_of_mem_operators {layer : Layer} (member : t.kind ∈ layer.operators) : layer.Borders t := by
  have here := continues?_of_mem_operators member
  have same : ∀ at_, continues? t.kind = some at_ → at_.tightness ≤ layer.tightness := by
    intro at_ continued
    rw [here] at continued
    cases continued
    exact Nat.le_refl _
  cases layer with
  | conditional | assignment => simp [operators] at member
  | disjunction | conjunction | equality | comparison | term | factor | unary | call | primary => exact same

end Layer

/-! ### Expressions -/

/-- The tokens are read as the expression: what the loop of the layer takes behind it is taken behind the tokens. -/
structure ReadsLayer (layer : Layer) (e : Expr) (ts : List Token) : Prop where
  begins : Begins layer.starts ts
  reads : ∀ {may n k vs e'}, k ≤ n + 1 → (∀ t, may t → layer.Borders (vs.headD t)) →
    (∀ j ≤ k, Takes may (j - 1) (layer.resume (expression n) k j e) vs e') →
    Takes may k (layer.reader (expression n) k) (ts ++ vs) e'

theorem Layer.takes_resume {layer : Layer} {nested : Reader Expr} {j : Nat} {e : Expr} :
    Takes layer.Ends (j - 1) (layer.resume nested k j e) [] e := by
  cases j with
  | zero => exact takes_zero
  | succ j =>
    have grouped (grouped : layer.Grouped) {inner : Layer} (next : layer.inner? = some inner) :
        Takes layer.Ends j (layer.resume nested k (j + 1) e) [] e := by
      rw [resume_of_grouped grouped next]
      exact .passed (fun _ ends => ends.not_mem fun _ => continues?_of_mem_operators) takes_pure
    cases layer with
    | conditional | assignment | unary | primary => exact takes_pure
    | disjunction | conjunction | equality | comparison | term | factor =>
      exact grouped (by simp [Grouped, operators]) rfl
    | call =>
      exact .passed (fun _ ends => ends.not_mem (by decide)) (.passed (fun _ ends => ends.not_mem (by decide)) takes_pure)

namespace ReadsLayer

variable {layer : Layer} {e : Expr} {ts : List Token}

theorem ends (h : ReadsLayer layer e ts) (bound : k ≤ n + 1) :
    Takes layer.Ends k (layer.reader (expression n) k) ts e := by
  have read : Takes layer.Ends k (layer.reader (expression n) k) (ts ++ []) e :=
    h.reads bound (fun _ ends => ends.borders) fun _ _ => Layer.takes_resume
  rwa [List.append_nil] at read

theorem of_takes (begins : Begins layer.starts ts) (plain : ∀ nested k j e, layer.resume nested k j e = pure e)
    (takes : ∀ {n k}, k ≤ n + 1 → Takes layer.Borders k (layer.reader (expression n) k) ts e) :
    ReadsLayer layer e ts := by
  refine ⟨begins, fun {may n k vs e'} bound borders resume => ?_⟩
  intro t rest cs enough allowed
  have nonempty := begins.length_pos
  rw [List.length_append] at enough
  have nothing := resume k (Nat.le_refl k) t rest cs (by omega) allowed
  rw [plain] at nothing
  obtain ⟨rfl, same⟩ := EStateM.Result.ok.inj nothing
  obtain rfl : vs = [] := by simpa using congrArg State.rest same
  rw [List.append_nil]
  exact takes bound t rest cs (by omega) (borders t allowed)

theorem inner {inner : Layer} (next : outer.inner? = some inner) (h : ReadsLayer inner e ts) :
    ReadsLayer outer e ts := by
  have nonempty := h.begins.length_pos
  have looped (starts : inner.starts ⊆ outer.starts)
      (loop : ∀ nested k, outer.reader nested k = inner.reader nested k >>= outer.resume nested k k)
      (ends : ∀ t, outer.Borders t → inner.Ends t) : ReadsLayer outer e ts := by
    refine ⟨h.begins.mono starts, fun bound borders resume => ?_⟩
    rw [loop]
    exact (h.ends bound).bind ((resume _ (Nat.le_refl _)).mono (by omega)) fun t allowed => ends _ (borders t allowed)
  cases outer with
  | conditional =>
    cases next
    refine of_takes h.begins (fun _ _ _ _ => rfl) fun bound => ?_
    exact (h.ends bound).bind_nil (.passed (fun _ ends => Layer.Ends.not_mem ends (by decide)) takes_pure)
      fun _ ends => Layer.Ends.inner ends rfl
  | assignment =>
    cases next
    refine of_takes h.begins (fun _ _ _ _ => rfl) fun {n k} bound => ?_
    cases k with
    | zero => exact takes_zero
    | succ =>
      exact (h.ends bound).bind_nil (.passed (fun _ ends => Layer.Ends.not_mem ends (by decide)) takes_pure)
        fun _ ends => Layer.Ends.inner ends rfl
  | disjunction | conjunction | equality | comparison | term | factor | call =>
    cases next
    exact looped (fun _ => id) (fun _ _ => rfl) fun _ borders at_ continued => Nat.lt_succ_of_le (borders at_ continued)
  | unary =>
    cases next
    refine of_takes (h.begins.mono (by simp [Layer.starts])) (fun _ _ _ _ => rfl) fun {n k} bound => ?_
    cases k with
    | zero => exact takes_zero
    | succ =>
      refine .passed (fun t _ => h.begins.apart t (by decide)) ((h.ends bound).imp ?_)
      exact fun _ borders at_ continued => Nat.lt_succ_of_le (borders at_ continued)
  | primary => cases next

theorem joined {operand : Layer} {left right : Expr} {op : Token} {ls rs : List Token}
    (next : layer.inner? = some operand) (isOp : op.kind ∈ layer.operators) (first : ReadsLayer layer left ls)
    (second : ReadsLayer operand right rs) : ReadsLayer layer (layer.join left op right) (ls ++ op :: rs) := by
  have grouped : layer.Grouped := List.ne_nil_of_mem isOp
  refine ⟨first.begins.append _, fun {may n k vs e'} bound borders resume => ?_⟩
  rw [List.append_assoc, List.cons_append]
  refine first.reads bound (fun _ _ => Layer.borders_of_mem_operators isOp) fun j within => ?_
  cases j with
  | zero => exact takes_zero
  | succ j =>
    have others := resume j (by omega)
    rw [Layer.resume_of_grouped grouped next] at others ⊢
    refine .taken isOp (((second.ends bound).mono (by omega)).bind (others.mono (by omega)) ?_)
    exact fun t allowed => (borders t allowed).inner_ends grouped next

theorem signed {op : Token} (isSign : op.kind ∈ [TokenKind.bang, .minus]) (part : ReadsLayer .unary e ts) :
    ReadsLayer .unary (.unary op e) (op :: ts) := by
  refine of_takes ⟨op, ts, rfl, List.mem_append_left primaryKinds isSign⟩ (fun _ _ _ _ => rfl) fun {n k} bound => ?_
  have ends (t : Token) (borders : Layer.unary.Borders t) : Layer.unary.Ends t := by
    intro at_ continued
    refine Nat.lt_of_le_of_ne (borders at_ continued) fun same => ?_
    cases at_ <;> cases same
    revert continued
    cases t.kind <;> nofun
  cases k with
  | zero => exact takes_zero
  | succ => exact .taken isSign ((part.ends (by omega)).imp ends).last

theorem expression (h : ReadsLayer .conditional e ts) : Takes Layer.conditional.Ends n (expression n) ts e := by
  cases n with
  | zero => exact takes_zero
  | succ => exact h.ends (Nat.le_refl _)

/-- An expression and what is read behind it, from a token on that does not go on with an expression. -/
theorem upTo {f : Expr → Reader β} {b : β} (part : ReadsLayer .conditional e ts) (is : t.kind = kind)
    (beyond : continues? kind = none) (fewer : n ≤ m) (next : Takes may (n - ts.length) (f e) (t :: vs) b) :
    Takes may n (Grammar.expression m >>= f) (ts ++ t :: vs) b := by
  refine (part.expression.mono fewer).bind next fun _ _ at_ continued => ?_
  rw [List.headD_cons, is, beyond] at continued
  cases continued

theorem conditional {c t : Expr} {mark colon : Token} {cs : List Token} (isMark : mark.kind = .question)
    (isColon : colon.kind = .colon) (test : ReadsLayer .assignment c cs) (yes : ReadsLayer .conditional t ts)
    (no : ReadsLayer .conditional e us) :
    ReadsLayer .conditional (.conditional c t e) (cs ++ mark :: (ts ++ colon :: us)) := by
  refine of_takes (test.begins.append _) (fun _ _ _ _ => rfl) fun {n k} bound => ?_
  have last := no.expression.mono (show k - cs.length - 1 - ts.length - 1 ≤ n by omega)
  refine (test.ends bound).bind (.keyword isMark (by decide) (yes.upTo isColon rfl (by omega) (.expect isColon last.last))) ?_
  intro _ _ at_ continued
  rw [List.headD_cons, isMark] at continued
  cases continued
  decide

theorem of_primary (member : t.kind ∈ primaryKinds)
    (takes : ∀ {n k}, k ≤ n + 1 → Takes Layer.primary.Borders k (primary (Grammar.expression n)) (t :: ts) e) :
    ReadsLayer .primary e (t :: ts) := of_takes ⟨t, ts, rfl, member⟩ (fun _ _ _ _ => rfl) takes

theorem literal {value : Literal} (isLiteral : literalOf? t = some value) :
    ReadsLayer .primary (.literal value) [t] := by
  have member : t.kind ∈ primaryKinds := by
    cases is : t.kind <;> simp [literalOf?, is] at isLiteral <;> simp [primaryKinds]
  refine of_primary member fun _ => .taken member ?_
  cases is : t.kind <;> simp [literalOf?, is] at isLiteral <;> subst isLiteral <;> simp only [is] <;> exact takes_pure

theorem name {name : Token} (isName : name.kind = .identifier) : ReadsLayer .primary (.var name none) [name] := by
  refine of_primary (by simp [isName, primaryKinds]) fun _ => .keyword isName (by decide) ?_
  simp only [isName]
  exact takes_pure

theorem this {keyword : Token} (isThis : keyword.kind = .kwThis) :
    ReadsLayer .primary (.this keyword none) [keyword] := by
  refine of_primary (by simp [isThis, primaryKinds]) fun _ => .keyword isThis (by decide) ?_
  simp only [isThis]
  exact takes_pure

theorem super {keyword method : Token} (isSuper : keyword.kind = .kwSuper) (isDot : dot.kind = .dot)
    (isName : method.kind = .identifier) : ReadsLayer .primary (.super keyword method none) [keyword, dot, method] := by
  refine of_primary (by simp [isSuper, primaryKinds]) fun _ => .keyword isSuper (by decide) ?_
  simp only [isSuper]
  exact .expect isDot (.expect isName takes_pure)

theorem group {right : Token} (isLeft : left.kind = .leftParen) (isRight : right.kind = .rightParen)
    (part : ReadsLayer .conditional e ts) : ReadsLayer .primary (.grouping e) (left :: (ts ++ [right])) := by
  refine of_primary (by simp [isLeft, primaryKinds]) fun _ => .keyword isLeft (by decide) ?_
  simp only [isLeft]
  exact part.upTo isRight rfl (by omega) (.expect isRight takes_pure)

theorem get {name : Token} (isDot : dot.kind = .dot) (isName : name.kind = .identifier)
    (target : ReadsLayer .call e ts) : ReadsLayer .call (.get e name) (ts ++ [dot, name]) := by
  refine ⟨target.begins.append _, fun {may n k vs e'} bound borders resume => ?_⟩
  rw [List.append_assoc]
  refine target.reads bound (fun _ _ at_ continued => ?_) fun j within => ?_
  · rw [List.cons_append, List.headD_cons, isDot] at continued
    cases continued
    exact Nat.le_refl _
  · cases j with
    | zero => exact takes_zero
    | succ j =>
      have others := (resume j (by omega)).mono (show j - 1 - 1 ≤ j - 1 by omega)
      exact .passed (fun _ _ => by simp [isDot]) (.keyword isDot (by decide) (.expect isName others))

end ReadsLayer

/-- The tokens are read as the arguments of a call; if there are any, from any count below the limit on. -/
def ReadsArguments : List Expr → List Token → Prop
  | [], vs => vs = []
  | first :: others, vs => Begins Layer.conditional.starts vs ∧
    ∀ {n k count m : Nat}, m ≤ n → m ≤ k → count + others.length < maxArguments →
      Takes (·.kind = .rightParen) m
        (do let first ← expression n; return first :: (← moreArguments (expression n) k (count + 1))) vs
        (first :: others)

theorem ReadsArguments.arguments {values : List Expr} (h : ReadsArguments values vs) (enough : m ≤ n) (room : m ≤ k)
    (fit : values.length ≤ maxArguments) : Takes (·.kind = .rightParen) m (arguments (expression n) k) vs values := by
  cases values with
  | nil =>
    subst h
    exact .nextIs (fun _ => decide_eq_true) takes_pure
  | cons first others =>
    obtain ⟨begins, reads⟩ := h
    exact .nextIs (fun t _ => begins.isnt t (by decide)) (reads enough room (by rw [List.length_cons] at fit; omega))

namespace ReadsLayer

variable {e : Expr} {ts : List Token}

theorem oneArgument (part : ReadsLayer .conditional e ts) : ReadsArguments [e] ts := by
  refine ⟨part.begins, fun {n k count m} enough room limit => ?_⟩
  cases k with
  | zero => exact takes_zero.mono room
  | succ =>
    refine (part.expression.mono enough).bind_nil (Takes.last (.passed (fun _ is => by simp [is]) takes_pure)) ?_
    intro t is at_ continued
    rw [is] at continued
    cases continued

theorem moreArguments {next : Expr} {others : List Expr} {comma : Token} (isComma : comma.kind = .comma)
    (part : ReadsLayer .conditional e ts) (list : ReadsArguments (next :: others) us) :
    ReadsArguments (e :: next :: others) (ts ++ comma :: us) := by
  refine ⟨part.begins.append _, fun {n k count m} enough room limit => ?_⟩
  rw [List.length_cons] at limit
  cases k with
  | zero => exact takes_zero.mono room
  | succ =>
    refine part.upTo isComma rfl (by omega) (Takes.last (.keyword isComma (by decide) ?_))
    simp only [if_neg (show ¬ maxArguments ≤ count + 1 by omega)]
    exact list.2 (by omega) (by omega) (by omega)

theorem call {paren : Token} {values : List Expr} (isLeft : left.kind = .leftParen)
    (isRight : paren.kind = .rightParen) (fit : values.length ≤ maxArguments) (target : ReadsLayer .call e ts)
    (list : ReadsArguments values vs) : ReadsLayer .call (.call e paren values) (ts ++ left :: (vs ++ [paren])) := by
  refine ⟨target.begins.append _, fun {may n k us e'} bound borders resume => ?_⟩
  simp only [List.append_assoc, List.cons_append, List.nil_append]
  refine target.reads bound (fun _ _ at_ continued => ?_) fun j within => ?_
  · rw [List.headD_cons, isLeft] at continued
    cases continued
    exact Nat.le_refl _
  · cases j with
    | zero => exact takes_zero
    | succ j =>
      refine .keyword isLeft (by decide) ((list.arguments (by omega) (by omega) fit).bind ?_ fun _ _ => isRight)
      exact .expect isRight ((resume j (by omega)).mono (by omega))

/-- Behind the target of an assignment, read up to the layer below, stands the equals sign. -/
theorem assignTo {target value result : Expr} (isEquals : equals.kind = .equal)
    (assigned : assignTo target equals value = pure result) (left : ReadsLayer .disjunction target ts)
    (source : ReadsLayer .assignment value vs) : ReadsLayer .assignment result (ts ++ equals :: vs) := by
  refine of_takes (left.begins.append _) (fun _ _ _ _ => rfl) fun {n k} bound => ?_
  cases k with
  | zero => exact takes_zero
  | succ k =>
    have nonempty := left.begins.length_pos
    have value := (source.ends (show k ≤ n + 1 by omega)).bind_nil (assigned ▸ takes_pure) fun _ => id
    refine (left.ends bound).bind (.keyword isEquals (by decide) (value.mono (by omega))) fun _ _ at_ continued => ?_
    rw [List.headD_cons, isEquals] at continued
    cases continued
    decide

theorem disjunction (h : ReadsLayer .call e ts) : ReadsLayer .disjunction e ts := by
  have factor : ReadsLayer .factor e ts := inner rfl (inner rfl h)
  have comparison : ReadsLayer .comparison e ts := inner rfl (inner rfl factor)
  have conjunction : ReadsLayer .conjunction e ts := inner rfl (inner rfl comparison)
  exact inner rfl conjunction

theorem assign {name : Token} (isName : name.kind = .identifier) (isEquals : equals.kind = .equal)
    (source : ReadsLayer .assignment e ts) : ReadsLayer .assignment (.assign name e none) (name :: equals :: ts) :=
  assignTo isEquals rfl (inner rfl (ReadsLayer.name isName)).disjunction source

theorem set {value : Expr} {name : Token} (isDot : dot.kind = .dot) (isName : name.kind = .identifier)
    (isEquals : equals.kind = .equal) (target : ReadsLayer .call e ts) (source : ReadsLayer .assignment value vs) :
    ReadsLayer .assignment (.set e name value) (ts ++ dot :: name :: equals :: vs) := by
  simpa using assignTo isEquals rfl (target.get isDot isName).disjunction source

end ReadsLayer

/-! ### Names -/

theorem Names.begins (h : Names names ts) : Begins [.identifier] ts := by
  cases h with
  | one isName => exact ⟨_, _, rfl, by simp [isName]⟩
  | more isName => exact ⟨_, _, rfl, by simp [isName]⟩

theorem Names.commaSeparated (h : Names names ts) {make : Token → α} {what : Missing} :
    Takes (·.kind ≠ .comma) n (Grammar.commaSeparated (do return make (← expect .identifier what)) n) ts
      (names.map make) := by
  have item {n : Nat} {name : Token} (isName : name.kind = .identifier) :
      Takes (fun _ => True) n (do return make (← expect .identifier what)) [name] (make name) := .expect isName takes_pure
  induction h generalizing n with
  | one isName =>
    cases n with
    | zero => exact takes_zero
    | succ n =>
      exact (item isName).bind_nil (.passed (fun _ beyond => by simpa using beyond) takes_pure) fun _ _ => trivial
  | more isName isComma _ ih =>
    cases n with
    | zero => exact takes_zero
    | succ n =>
      exact (item isName).bind (.keyword isComma (by decide) (ih.mono (by omega)).last) fun _ _ => trivial

theorem Names.parameters (h : Names names ts) {count : Nat} (limit : count + names.length ≤ maxArguments) :
    Takes (·.kind ≠ .comma) n (Grammar.parameters n count) ts names := by
  induction h generalizing n count with
  | one isName =>
    cases n with
    | zero => exact takes_zero
    | succ =>
      rw [List.length_singleton] at limit
      simp only [Grammar.parameters, if_neg (show ¬ maxArguments ≤ count by omega)]
      exact .expect isName (.passed (fun _ beyond => by simpa using beyond) takes_pure)
  | more isName isComma _ ih =>
    cases n with
    | zero => exact takes_zero
    | succ =>
      rw [List.length_cons] at limit
      simp only [Grammar.parameters, if_neg (show ¬ maxArguments ≤ count by omega)]
      exact .expect isName (.keyword isComma (by decide) ((ih (by omega)).mono (by omega)).last)

theorem Parameters.parameterList {kind : FunctionKind} {params : Option (List Token)} {ps : List Token}
    (h : Parameters (· ≤ maxArguments) kind params ps) :
    Takes (·.kind = .leftBrace) n (Grammar.parameterList kind n) ps params := by
  cases h with
  | getter => exact .nextIs (fun _ is => decide_eq_false (by simp [is])) takes_pure
  | empty opens closes =>
    refine .nextIs (fun _ _ => decide_eq_true opens) ?_
    simp only [Bool.not_true, Bool.and_false, Bool.false_eq_true, if_false]
    exact .expect opens (.nextIs (fun _ _ => decide_eq_true closes) (.expect closes takes_pure))
  | @list _ opening closing _ us opens closes names fit =>
    refine .nextIs (fun _ _ => decide_eq_true opens) ?_
    simp only [Bool.not_true, Bool.and_false, Bool.false_eq_true, if_false, List.cons_append]
    refine .expect opens (.nextIs (fun t _ => (names.begins.append _).isnt t (by decide)) ?_)
    exact ((names.parameters (by simpa using fit)).mono (by omega)).bind (.expect closes takes_pure) fun _ _ => by simp [closes]

theorem Extends.superclassClause {base : Option NameRef} {bs : List Token} (h : Extends base bs) :
    Takes (·.kind ≠ .less) n Grammar.superclassClause bs base := by
  cases h with
  | nothing => exact .passed (fun _ beyond => by simpa using beyond) takes_pure
  | base isLess isName => exact .keyword isLess (by decide) (.expect isName takes_pure)

theorem Includes.withClause {traits : List NameRef} {ws : List Token} (h : Includes traits ws) :
    Takes (·.kind = .leftBrace) n (Grammar.withClause n) ws traits := by
  cases h with
  | nothing => exact .passed (fun _ is => by simp [is]) takes_pure
  | traits isWith list => exact .keyword isWith (by decide) ((list.commaSeparated.mono (by omega)).imp fun _ is => by simp [is])

theorem Includes.begins {traits : List NameRef} {ws : List Token} (h : Includes traits ws)
    (isLeft : left.kind = .leftBrace) : Begins [.kwWith, .leftBrace] (ws ++ left :: us) := by
  cases h with
  | nothing => exact ⟨left, us, rfl, by simp [isLeft]⟩
  | traits isWith => exact ⟨_, _, rfl, by simp [isWith]⟩

/-! ### Statements and declarations -/

def statementStarts : List TokenKind := statementKinds ++ Layer.conditional.starts

def declarationStarts : List TokenKind := declarationKinds ++ statementStarts

/-- The tokens are read as the statement; if it is open, before anything but an `else`. -/
structure ReadsStatement (s : Stmt) (isOpen : Bool) (ts : List Token) : Prop where
  begins : Begins statementStarts ts
  reads : ∀ {n}, Takes (fun t => isOpen = true → t.kind ≠ .kwElse) n (statement n) ts s

/-- An item of a list in braces: it begins with none of the tokens that close the list or would go on with an item
before it, and it is read before any of them. -/
structure ReadsItem (item : Nat → Reader α) (ts : List Token) (a : α) : Prop where
  begins : Begins declarationStarts ts
  reads : ∀ {n}, Takes (·.kind ≠ .kwElse) n (item n) ts a

/-- The tokens are read as the function, from its name on. -/
structure ReadsFunction (kind : FunctionKind) (ts : List Token) (f : FunDecl) : Prop where
  begins : Begins [.identifier] ts
  reads : ∀ {may n}, Takes may n (function kind (declaration n) (n + 1)) ts f

/-- The tokens are read as the phrase. -/
def Reads : Phrase → List Token → Prop
  | .expression layer e, ts => ReadsLayer layer e ts
  | .arguments values, ts => ReadsArguments values ts
  | .optional value, ts => ∀ {kind n}, kind ∈ [TokenKind.semicolon, .rightParen] →
    Takes (·.kind = kind) n (unlessNext kind n) ts value
  | .definition s, ts => ∀ {may n}, Takes may n (varDeclaration n) ts s
  | .initializer s, ts => ∀ {may n}, Takes may n (forInitializer n) ts s
  | .statement s isOpen, ts => ReadsStatement s isOpen ts
  | .declaration s, ts => ReadsItem declaration ts (some s)
  | .declarations body, ts => Pieces (ReadsItem declaration) ts (body.map some)
  | .function kind f, ts => ReadsFunction kind ts f
  | .members members, ts => Pieces (ReadsItem fun n => classMember (declaration n) (n + 1)) ts members
  | .methods methods, ts => Pieces (ReadsItem fun n => function .method (declaration n) (n + 1)) ts methods

theorem ReadsLayer.expressionStatement {e : Expr} {semicolon : Token} (isEnd : semicolon.kind = .semicolon)
    (part : ReadsLayer .conditional e ts) :
    Takes may n (Grammar.expressionStatement n) (ts ++ [semicolon]) (.expression e) :=
  part.upTo isEnd rfl (by omega) (.expect isEnd takes_pure)

theorem ReadsLayer.optional {e : Expr} (part : ReadsLayer .conditional e ts) : Reads (.optional (some e)) ts := by
  intro kind n closing
  have apart : ∀ other ∈ Layer.conditional.starts, other ≠ kind := by
    rintro other member rfl
    exact absurd member (by revert other; decide)
  refine .nextIs (fun t _ => part.begins.isnt t apart) (part.expression.imp fun t is at_ continued => ?_).last
  have beyond : ∀ kind ∈ [TokenKind.semicolon, .rightParen], continues? kind = none := by decide
  rw [is, beyond kind closing] at continued
  cases continued

theorem readsStatement_cons {s : Stmt} {isOpen : Bool} {keyword : Token} (is : keyword.kind = kind)
    (member : kind ∈ statementKinds) (reads : ∀ n, Takes (fun t => isOpen = true → t.kind ≠ .kwElse) (n + 1)
      (statementWith (statement n) (declaration n) (n + 1)) (keyword :: ts) s) :
    ReadsStatement s isOpen (keyword :: ts) := by
  refine ⟨⟨keyword, ts, rfl, List.mem_append_left _ (is ▸ member)⟩, fun {n} => ?_⟩
  cases n with
  | zero => exact takes_zero
  | succ n => exact reads n

theorem Takes.orRecover {r : Reader α} {a : α} (takes : Takes may n r ts a) : Takes may n (orRecover r) ts (some a) :=
  fun t rest cs enough allowed => orRecover_of_ok (takes t rest cs enough allowed)

theorem readsDeclaration_cons {s : Stmt} {keyword : Token} (is : keyword.kind = kind)
    (member : kind ∈ declarationKinds)
    (reads : ∀ n, Takes (·.kind ≠ .kwElse) (n + 1) (declarationWith (statement n) (declaration n) (n + 1))
      (keyword :: ts) s) : ReadsItem declaration (keyword :: ts) (some s) := by
  refine ⟨⟨keyword, ts, rfl, List.mem_append_left _ (is ▸ member)⟩, fun {n} => ?_⟩
  cases n with
  | zero => exact takes_zero
  | succ n => exact (reads n).orRecover

theorem ReadsStatement.plain {s : Stmt} {isOpen : Bool} (part : ReadsStatement s isOpen ts) :
    ReadsItem declaration ts (some s) := by
  refine ⟨part.begins.mono (List.subset_append_right _ _), fun {n} => ?_⟩
  cases n with
  | zero => exact takes_zero
  | succ n =>
    have read : Takes (·.kind ≠ .kwElse) (n + 1) (statement (n + 1)) ts s := part.reads.imp fun _ notElse _ => notElse
    exact Takes.orRecover (.passed (fun t _ => part.begins.apart t (by decide)) read)

theorem Pieces.follows {item : Nat → Reader α} {items : List α} (pieces : Pieces (ReadsItem item) ts items)
    (beyond : t.kind ≠ .kwElse) : (ts.headD t).kind ≠ .kwElse := by
  cases pieces with
  | nil => exact beyond
  | cons first => exact of_decide_eq_false ((first.begins.append _).isnt t (by decide))

theorem Pieces.untilBrace {item : Nat → Reader α} {items : List α} (pieces : Pieces (ReadsItem item) ts items)
    (enough : m ≤ n) (room : m ≤ k) : Takes (·.kind = .rightBrace) m (Grammar.untilBrace (item n) k) ts items := by
  induction pieces generalizing k m with
  | nil =>
    cases k with
    | zero => exact takes_zero.mono room
    | succ k => exact .nextIs (fun _ => decide_eq_true) (.nextIs (fun _ is => decide_eq_false (by simp [is])) takes_pure)
  | cons first others ih =>
    cases k with
    | zero => exact takes_zero.mono room
    | succ k =>
      have nonempty := first.begins.length_pos
      have begins := first.begins.append
      refine .nextIs (fun t _ => (begins _).isnt t (by decide)) (.nextIs (fun t _ => (begins _).isnt t (by decide)) ?_)
      exact (first.reads.mono enough).bind (ih (by omega) (by omega)).last fun _ is => others.follows (by simp [is])

/-- A body in braces, from behind the brace that opens it. -/
theorem Pieces.block {body : List Stmt} (pieces : Pieces (ReadsItem declaration) ts (body.map some)) {right : Token}
    (isRight : right.kind = .rightBrace) (enough : m ≤ n) :
    Takes may m (Grammar.block (declaration n) (n + 1)) (ts ++ [right]) body := by
  have read : Takes may m (Grammar.block (declaration n) (n + 1)) (ts ++ [right]) ((body.map some).filterMap id) :=
    (pieces.untilBrace enough (by omega)).bind (.expect isRight takes_pure) fun _ _ => isRight
  simpa [List.filterMap_map] using read

theorem Pieces.declarations {items : List (Option Stmt)} (pieces : Pieces (ReadsItem declaration) ts items) :
    Takes (·.kind = .endOfFile) n (Grammar.declarations n) ts (items.filterMap id) := by
  induction pieces generalizing n with
  | nil =>
    cases n with
    | zero => exact takes_zero
    | succ n => exact .nextIs (fun _ => decide_eq_true) takes_pure
  | @cons _ _ item _ first others ih =>
    cases n with
    | zero => exact takes_zero
    | succ n =>
      have nonempty := first.begins.length_pos
      refine .nextIs (fun t _ => (first.begins.append _).isnt t (by decide)) ?_
      refine first.reads.bind ?_ fun _ is => others.follows (by simp [is])
      cases item with
      | none => exact (ih.mono (by omega))
      | some => exact (ih.mono (by omega)).last

theorem ReadsFunction.item {f : FunDecl} (h : ReadsFunction .method ts f) :
    ReadsItem (fun n => function .method (declaration n) (n + 1)) ts f :=
  ⟨h.begins.mono (by simp [declarationStarts, statementStarts, Layer.starts, primaryKinds]), h.reads⟩

theorem ReadsFunction.ownMember {keyword : Token} {f : FunDecl} (isClass : keyword.kind = .kwClass)
    (h : ReadsFunction .method ts f) :
    ReadsItem (fun n => classMember (declaration n) (n + 1)) (keyword :: ts) (true, f) :=
  ⟨⟨keyword, ts, rfl, by simp [isClass, declarationStarts, declarationKinds]⟩,
    .keyword isClass (by decide) (h.reads.mono (by omega)).last⟩

theorem ReadsFunction.member {f : FunDecl} (h : ReadsFunction .method ts f) :
    ReadsItem (fun n => classMember (declaration n) (n + 1)) ts (false, f) :=
  ⟨h.item.begins, .passed (fun t _ => h.begins.apart t (by decide)) h.reads.last⟩

/-- What is written for a phrase is read as that phrase, by induction on how it is written. -/
theorem Derives.reads {p : Phrase} (h : Derives (· ≤ maxArguments) p ts) : Reads p ts := by
  induction h with
  | inner next _ part => exact ReadsLayer.inner next part
  | joined next isOp _ _ first second => exact ReadsLayer.joined next isOp first second
  | conditional isMark isColon _ _ _ test yes no => exact ReadsLayer.conditional isMark isColon test yes no
  | assign isName isEquals _ source => exact ReadsLayer.assign isName isEquals source
  | set isDot isName isEquals _ _ target source => exact ReadsLayer.set isDot isName isEquals target source
  | signed isSign _ part => exact ReadsLayer.signed isSign part
  | call isLeft isRight fit _ _ target list => exact ReadsLayer.call isLeft isRight fit target list
  | get isDot isName _ target => exact ReadsLayer.get isDot isName target
  | literal isLiteral => exact ReadsLayer.literal isLiteral
  | name isName => exact ReadsLayer.name isName
  | this isThis => exact ReadsLayer.this isThis
  | super isSuper isDot isName => exact ReadsLayer.super isSuper isDot isName
  | group isLeft isRight _ part => exact ReadsLayer.group isLeft isRight part
  | noArguments => exact rfl
  | oneArgument _ part => exact ReadsLayer.oneArgument part
  | moreArguments isComma _ _ part others => exact ReadsLayer.moreArguments isComma part others
  | absent => exact fun _ => .nextIs (fun _ => decide_eq_true) takes_pure
  | present _ part => exact ReadsLayer.optional part
  | unset isName isEnd => exact .expect isName (.passed (fun _ _ => by simp [isEnd]) (.expect isEnd takes_pure))
  | valued isName isEquals isEnd _ part =>
    exact .expect isName (.keyword isEquals (by decide) (part.upTo isEnd rfl (by omega) (.expect isEnd takes_pure)))
  | noInitializer isEnd =>
    refine .keyword isEnd (by decide) ?_
    simp only [isEnd, if_true]
    exact takes_pure
  | newVariable isVar _ part =>
    refine .keyword isVar (by decide) ?_
    simp only [isVar, reduceCtorEq, if_false]
    exact (part.mono (by omega)).last
  | firstValue isEnd _ part =>
    exact .passed (fun t _ => (part.begins.append _).apart t (by decide)) (part.expressionStatement isEnd).last
  | evaluation isEnd _ part =>
    refine ⟨(part.begins.append _).mono (List.subset_append_right _ _), fun {n} => ?_⟩
    cases n with
    | zero => exact takes_zero
    | succ => exact .passed (fun t _ => (part.begins.append _).apart t (by decide)) (part.expressionStatement isEnd)
  | print isPrint isEnd _ part =>
    refine readsStatement_cons isPrint (by decide) fun n => .keyword isPrint (by decide) ?_
    simp only [isPrint]
    exact part.upTo isEnd rfl (by omega) (.expect isEnd takes_pure)
  | returned isReturn isEnd _ part =>
    refine readsStatement_cons isReturn (by decide) fun n => .keyword isReturn (by decide) ?_
    simp only [isReturn]
    exact ((part (by simp)).mono (by omega)).bind (.expect isEnd takes_pure) fun _ _ => isEnd
  | broken isBreak isEnd =>
    refine readsStatement_cons isBreak (by decide) fun n => .keyword isBreak (by decide) ?_
    simp only [isBreak]
    exact .expect isEnd takes_pure
  | block isLeft isRight _ part =>
    refine readsStatement_cons isLeft (by decide) fun n => .keyword isLeft (by decide) ?_
    simp only [isLeft]
    exact (Pieces.block part isRight (by omega)).last
  | ifThen isIf isLeft isRight _ _ test yes =>
    refine readsStatement_cons isIf (by decide) fun n => .keyword isIf (by decide) ?_
    simp only [isIf]
    refine .expect isLeft (test.upTo isRight rfl (by omega) (.expect isRight ?_))
    refine (yes.reads.mono (by omega)).bind_nil ?_ fun _ follows _ => ?_
    · exact .passed (fun _ follows => by simpa using follows) takes_pure
    · exact follows trivial
  | ifElse isIf isLeft isRight isElse _ _ _ test yes no =>
    refine readsStatement_cons isIf (by decide) fun n => .keyword isIf (by decide) ?_
    simp only [isIf]
    refine .expect isLeft (test.upTo isRight rfl (by omega) (.expect isRight ?_))
    refine (yes.reads.mono (by omega)).bind ?_ fun _ _ => by simp
    exact .keyword isElse (by decide) (no.reads.mono (by omega)).last
  | «while» isWhile isLeft isRight _ _ test body =>
    refine readsStatement_cons isWhile (by decide) fun n => .keyword isWhile (by decide) ?_
    simp only [isWhile]
    exact .expect isLeft (test.upTo isRight rfl (by omega) (.expect isRight (body.reads.mono (by omega)).last))
  | «for» isFor isLeft isEnd isRight _ _ _ _ start test step body =>
    refine readsStatement_cons isFor (by decide) fun n => .keyword isFor (by decide) ?_
    simp only [isFor]
    have first : Takes (fun _ => True) n (forInitializer (n + 1)) _ _ := start.mono (by omega)
    refine .expect isLeft ((first.mono (by omega)).bind ?_ fun _ _ => trivial)
    refine ((test (by simp)).mono (by omega)).bind (.expect isEnd ?_) fun _ _ => isEnd
    exact ((step (by simp)).mono (by omega)).bind (.expect isRight (body.reads.mono (by omega)).last) fun _ _ => isRight
  | classDef isClass isName isLeft isRight extension inclusion _ body =>
    refine readsDeclaration_cons isClass (by decide) fun n => .keyword isClass (by decide) ?_
    simp only [isClass]
    refine Takes.last (.expect isName (extension.superclassClause.bind ?_ fun t _ => ?_))
    · refine (inclusion.withClause.mono (by omega)).bind (.expect isLeft ?_) fun _ _ => isLeft
      exact (Pieces.untilBrace body (by omega) (by omega)).bind (.expect isRight takes_pure) fun _ _ => isRight
    · exact of_decide_eq_false ((inclusion.begins isLeft).isnt t (by decide))
  | traitDef isTrait isName isLeft isRight inclusion _ body =>
    refine readsDeclaration_cons isTrait (by decide) fun n => .keyword isTrait (by decide) ?_
    simp only [isTrait]
    refine Takes.last (.expect isName ((inclusion.withClause.mono (by omega)).bind (.expect isLeft ?_) fun _ _ => isLeft))
    exact (Pieces.untilBrace body (by omega) (by omega)).bind (.expect isRight takes_pure) fun _ _ => isRight
  | functionDef isFun _ part =>
    refine readsDeclaration_cons isFun (by decide) fun n => .keyword isFun (by decide) ?_
    simp only [isFun]
    exact (part.reads.mono (by omega)).last
  | varDef isVar _ part =>
    refine readsDeclaration_cons isVar (by decide) fun n => .keyword isVar (by decide) ?_
    simp only [isVar]
    exact (part.mono (by omega))
  | plain _ part => exact ReadsStatement.plain part
  | noDeclarations => exact Pieces.nil
  | moreDeclarations _ _ first others => exact Pieces.cons first others
  | function isName isLeft isRight list _ part =>
    refine ⟨⟨_, _, rfl, by simp [isName]⟩, fun {may n} => .expect isName ?_⟩
    exact (list.parameterList.mono (by omega)).bind (.expect isLeft (Pieces.block part isRight (by omega)).last) fun _ _ => isLeft
  | noMembers => exact Pieces.nil
  | ownMember isClass _ _ first others => exact Pieces.cons (ReadsFunction.ownMember isClass first) others
  | member _ _ first others => exact Pieces.cons (ReadsFunction.member first) others
  | noMethods => exact Pieces.nil
  | method _ _ first others => exact Pieces.cons (ReadsFunction.item first) others

/-- A program in the grammar is read up to the end of the source, without complaints. -/
theorem declarations_of_derives {program : List Stmt} {rest : List Token} {last : Token}
    (derived : Derives (· ≤ maxArguments) (.declarations program) ts) (isEnd : last.kind = .endOfFile) :
    declarations (ts ++ last :: rest).length ⟨ts ++ last :: rest, []⟩ = .ok program ⟨last :: rest, []⟩ := by
  have read := Pieces.declarations derived.reads last rest [] (n := (ts ++ last :: rest).length) (by simp) isEnd
  simpa [List.filterMap_map] using read

theorem parseProgram_of_derives {program : List Stmt} {rest : List Token} {last : Token}
    (derived : Derives (· ≤ maxArguments) (.declarations program) ts) (isEnd : last.kind = .endOfFile) :
    parseProgram (ts ++ last :: rest) = ⟨.ok program, []⟩ := by
  simp only [parseProgram, Reader.parse, EStateM.run, declarations_of_derives derived isEnd]

end LoxLang.Grammar
