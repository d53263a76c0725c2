import TermHeap.Storage

/-!
# Stacks

The storage of a growing array used from its end. Items are seen from the top (`peek?`) or from the
bottom (`at`). Taking from an empty stack, keeping more items than there are, and looking above the
top are faults.
-/

namespace TermHeap

/-- A stack; its last item is on top. -/
abbrev Stack := Storage

/-- The misuses of a stack. -/
inductive StackFault where
  /-- An item was taken from the empty stack. -/
  | empty
  /-- More items were to be kept than there are. -/
  | keepsTooMany
  /-- No item is that far from the bottom. -/
  | aboveTop
  /-- The slot of an item was never written. -/
  | unwritten
deriving DecidableEq, Repr

namespace Stack

variable {α : Type}

/-- Whether there are no items. -/
def isEmpty (s : Stack α) : Bool := s.size == 0

/-- The item at a relative index. -/
def item (s : Stack α) (index : Nat) : Except StackFault α :=
  match s.slot? index with
  | none => .error .unwritten
  | some a => .ok a

/-- Keep the `n` lowest items. -/
def trim (s : Stack α) (n : Nat) : Except StackFault (Stack α) :=
  if n ≤ s.size then .ok (s.take n) else .error .keepsTooMany

/-- Take the item on top. -/
def pop (s : Stack α) : Except StackFault (α × Stack α) :=
  if s.size = 0 then .error .empty
  else
    match s.item s.size with
    | .error e => .error e
    | .ok a => .ok (a, s.take (s.size - 1))

/-- The item that has `depth` items above it. -/
def peek? (s : Stack α) (depth : Nat) : Option α := s.slot? (s.size - depth)

/-- Replace the item that has `depth` items above it. -/
def poke (s : Stack α) (depth : Nat) (a : α) : Stack α := s.write (s.size - depth) a

/-- The item that has `index` items below it. -/
def «at» (s : Stack α) (index : Nat) : Except StackFault α :=
  if index < s.size then s.item (index + 1) else .error .aboveTop

/-- Drop all items. The storage is kept. -/
def clear (s : Stack α) : Stack α := s.take 0

end Stack
end TermHeap
