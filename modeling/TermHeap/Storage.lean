import TermHeap.Growing

/-!
# The storage of growing arrays

How a growing array lies in memory: in a row of slots, of which slot 0 is set aside, so that an item
is in the slot of its relative index. When the slots do not suffice a longer row is allocated, the
slots of the items are copied to the same places in it, and the old row is given up with whatever
removed items left above the top.
-/

namespace TermHeap

/-- A row of slots and the number of items in it. A slot that was never written holds nothing. -/
structure Storage (α : Type) where
  slots : Array (Option α)
  size : Nat
deriving Repr, Inhabited

namespace Storage

variable {α : Type}

/-- Storage without items. There are at least 2 slots, so there is room for one item. -/
def empty (capacity : Nat) : Storage α := ⟨Array.replicate (max capacity 2) none, 0⟩

/-- Storage that was handed over to another owner. -/
def released : Storage α := ⟨#[], 0⟩

/-- The number of slots. -/
def capacity (st : Storage α) : Nat := st.slots.size

/-- Copy slots 1 to `n` of a row to another row, from the last to the first. -/
def copySlots (old : Array (Option α)) : (n : Nat) → (new : Array (Option α)) → Array (Option α)
  | 0, new => new
  | n + 1, new => copySlots old n (new.setIfInBounds (n + 1) (old[n + 1]?.getD none))

/-- Make room for `n` more items. -/
def ensure (st : Storage α) (n : Nat) : Storage α :=
  match st with
  | ⟨slots, size⟩ =>
    let grown := Growing.capacityFor size n slots.size
    if grown = slots.size then ⟨slots, size⟩
    else ⟨copySlots slots size (Array.replicate grown none), size⟩

/-- Add `n` items whose slots are not written yet, and return the relative index of the first. -/
def allocate (st : Storage α) (n : Nat) : Nat × Storage α :=
  match st.ensure n with
  | ⟨slots, size⟩ => (size + 1, ⟨slots, size + n⟩)

/-- Write a slot. Index 0 is that of no slot. -/
def write (st : Storage α) (index : Nat) (a : α) : Storage α :=
  match st, index with
  | st, 0 => st
  | ⟨slots, size⟩, i + 1 => ⟨slots.setIfInBounds (i + 1) (some a), size⟩

/-- Write neighbouring slots from an index on. -/
def fill (st : Storage α) (index : Nat) : List α → Storage α
  | [] => st
  | a :: block => (st.write index a).fill (index + 1) block

/-- Add a block of items at the end, and return the relative index of the first. -/
def append (st : Storage α) (block : List α) : Nat × Storage α :=
  let (index, st) := st.allocate block.length
  (index, st.fill index block)

/-- Add one item at the end. -/
def push (st : Storage α) (a : α) : Storage α :=
  let (index, st) := st.allocate 1
  st.write index a

/-- Whether an item has this relative index. -/
def isValid (st : Storage α) (index : Nat) : Bool := 1 ≤ index && index ≤ st.size

/-- What the slot of a relative index holds, be it an item or left from a removed one. -/
def slot? (st : Storage α) : Nat → Option α
  | 0 => none
  | i + 1 => st.slots[i + 1]?.getD none

/-- Keep the first `n` items. No slot is written. -/
def take (st : Storage α) (n : Nat) : Storage α := ⟨st.slots, n⟩

/-- The number of 64-bit items that hold a number of bytes, in 64-bit arithmetic. -/
def itemsForBytes (bytes : Nat) : Nat := (bytes + 7) % wordSpan / 8

end Storage
end TermHeap
