import Scaffold.Fault

/-! # Stacks

The nodes that a session has entered, from the outermost to the current one. -/

namespace Scaffold

/-- A stack; the last item is the top. -/
structure Stack (α : Type) where
  items : List α

namespace Stack

variable {α : Type}

/-- The number of items. -/
def size (s : Stack α) : Nat := s.items.length

/-- Puts an item on top. -/
def push (s : Stack α) (a : α) : Stack α := ⟨s.items ++ [a]⟩

/-- Puts items on top, the last one last. -/
def pushAll (s : Stack α) (as : List α) : Stack α := ⟨s.items ++ as⟩

/-- The top. -/
def peek (s : Stack α) : Except ProtocolFault α :=
  match s.items.getLast? with
  | some a => .ok a
  | none => .error .emptyPeek

/-- The top and what is below it. -/
def pop (s : Stack α) : Except ProtocolFault (α × Stack α) :=
  match s.items.getLast? with
  | some a => .ok (a, ⟨s.items.dropLast⟩)
  | none => .error .emptyPop

/-- The stack down to its outermost item. -/
def rewind (s : Stack α) : Stack α := ⟨s.items.take 1⟩

theorem pop_push (s : Stack α) (a : α) : (s.push a).pop = .ok (a, s) := by
  simp [push, pop]

theorem peek_push (s : Stack α) (a : α) : (s.push a).peek = .ok a := by
  simp [push, peek]

end Stack

end Scaffold
