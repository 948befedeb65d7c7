/-!
# Stacks

Items of which only the last one pushed can be seen and taken away.
-/

namespace LoxLang.Scope

/-- What cannot be done with an empty stack. -/
inductive StackError where
  | popEmpty
  | peekEmpty
  deriving Repr, DecidableEq

def StackError.message : StackError → String
  | popEmpty => "pop from empty stack"
  | peekEmpty => "peek from empty stack"

/-- A stack, with the item pushed last in front. -/
structure Stack (α : Type) where
  items : List α
  deriving Repr, Inhabited

namespace Stack

variable {α : Type}

def empty : Stack α := ⟨[]⟩

def push (s : Stack α) (item : α) : Stack α := ⟨item :: s.items⟩

/-- The item pushed last, and the stack without it. -/
def pop (s : Stack α) : Except StackError (α × Stack α) :=
  match s.items with
  | [] => .error .popEmpty
  | item :: rest => .ok (item, ⟨rest⟩)

def peek (s : Stack α) : Except StackError α :=
  match s.items with
  | [] => .error .peekEmpty
  | item :: _ => .ok item

def isEmpty (s : Stack α) : Bool := s.items.isEmpty

def size (s : Stack α) : Nat := s.items.length

end Stack
end LoxLang.Scope
