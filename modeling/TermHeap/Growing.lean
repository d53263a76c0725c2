import TermHeap.Cell.Word

/-!
# Growing arrays

An array that doubles its capacity when it is full. Slot 0 of the storage is set aside, so an
array of capacity `c` has room for `c - 1` items, and items are addressed by *relative index*:
the first item has index 1 and index 0 belongs to none. Relative indices stay valid when the
storage grows.

Removed items stay in the storage above the top until they are overwritten or the storage grows,
which moves the items only. `slot?` reads the storage there, `get?` reads items.
-/

namespace TermHeap

/-- Items in order of arrival, what removed items left above them, and the capacity of the storage
that holds both. -/
structure Growing (α : Type) where
  items : Array α
  above : List α
  capacity : Nat
deriving Repr, Inhabited

namespace Growing

variable {α : Type}

/-- An empty array. The capacity is at least 2, so there is room for one item. -/
def empty (capacity : Nat) : Growing α := ⟨#[], [], max capacity 2⟩

/-- The number of items. -/
def size (g : Growing α) : Nat := g.items.size

/-- Double a capacity until it exceeds `need`, at most `doublings` times, in 64-bit arithmetic.
Capacity 0, of storage that was handed over or doubled out of the word, has no limit. -/
def doubleUntil (need : Nat) : (doublings capacity : Nat) → Nat
  | 0, capacity => capacity
  | doublings + 1, capacity =>
    if need < capacity ∨ capacity = 0 then capacity
    else doubleUntil need doublings (capacity * 2 % wordSpan)

/-- The capacity after room was made for `n` items beside `size` others, whose sum is taken in
64-bit arithmetic. Doubling a word 64 times leaves nothing of it, so no more are ever made. -/
def capacityFor (size n capacity : Nat) : Nat := doubleUntil ((size + n) % wordSpan) 64 capacity

/-- What is left above the top once `n` items were added and the capacity went from `old` to
`new`. -/
def leftAbove (above : List α) (n old new : Nat) : List α :=
  if new = old then above.drop n else []

/-- Make room for `n` more items. -/
def ensure (g : Growing α) (n : Nat) : Growing α :=
  match g with
  | ⟨items, above, capacity⟩ =>
    let grown := capacityFor items.size n capacity
    ⟨items, leftAbove above 0 capacity grown, grown⟩

/-- Add one item at the end. -/
def push (g : Growing α) (a : α) : Growing α :=
  match g with
  | ⟨items, above, capacity⟩ =>
    let grown := capacityFor items.size 1 capacity
    ⟨items.push a, leftAbove above 1 capacity grown, grown⟩

/-- Add a block of items at the end. -/
def append (g : Growing α) (block : Array α) : Growing α :=
  match g with
  | ⟨items, above, capacity⟩ =>
    let grown := capacityFor items.size block.size capacity
    ⟨items ++ block, leftAbove above block.size capacity grown, grown⟩

/-- The relative index that the next item will get. -/
def top (g : Growing α) : Nat := g.size + 1

/-- Whether an item has this relative index. -/
def isValid (g : Growing α) (index : Nat) : Bool := 1 ≤ index && index ≤ g.size

/-- The item at a relative index. -/
def get? (g : Growing α) : Nat → Option α
  | 0 => none
  | i + 1 => g.items[i]?

/-- What the storage holds at a relative index, be it an item or left from a removed one. -/
def slot? (g : Growing α) (index : Nat) : Option α :=
  if index ≤ g.size then g.get? index else g.above[index - g.size - 1]?

/-- Replace the item at a relative index; nothing changes if there is none. -/
def set (g : Growing α) (index : Nat) (a : α) : Growing α :=
  match g, index with
  | g, 0 => g
  | ⟨items, above, capacity⟩, i + 1 => ⟨items.setIfInBounds i a, above, capacity⟩

/-- Keep the first `n` items. -/
def take (g : Growing α) (n : Nat) : Growing α :=
  match g with
  | ⟨items, above, capacity⟩ =>
    let removed := (items.extract n items.size).toList
    ⟨items.shrink n, removed ++ above, capacity⟩

/-! ### What the operations do to the items -/

/-- A pushed item counts. -/
@[simp] theorem size_push (g : Growing α) (a : α) : (g.push a).size = g.size + 1 := by
  simp [push, size]

/-- Replacing an item keeps the number of items. -/
@[simp] theorem size_set (g : Growing α) (i : Nat) (a : α) : (g.set i a).size = g.size := by
  cases i with
  | zero => rfl
  | succ i => simp [set, size]

/-- The relative indices are those from 1 to the number of items. -/
theorem isValid_iff {g : Growing α} {i : Nat} : g.isValid i = true ↔ 1 ≤ i ∧ i ≤ g.size := by
  simp [isValid]

/-- The relative indices are those that have an item. -/
theorem isSome_get? (g : Growing α) (i : Nat) : (g.get? i).isSome = g.isValid i := by
  cases i with
  | zero => simp [get?, isValid]
  | succ i =>
    rw [Bool.eq_iff_iff, isValid_iff, get?, isSome_getElem?, size]
    omega

/-- A pushed item is at the index that was the top, and the others stay where they are. -/
theorem get?_push (g : Growing α) (a : α) (i : Nat) :
    (g.push a).get? i = if i = g.top then some a else g.get? i := by
  cases i with
  | zero => simp [get?, top]
  | succ i => simp [get?, push, top, size, Array.getElem?_push]

/-- The items of an added block follow each other from the index that was the top. -/
theorem get?_append (g : Growing α) (block : Array α) (i : Nat) :
    (g.append block).get? i = if i < g.top then g.get? i else block[i - g.top]? := by
  cases i with
  | zero => simp [get?, top]
  | succ i => simp [get?, append, top, size, Array.getElem?_append]

/-- Replacing an item changes that item only. -/
theorem get?_set (g : Growing α) (i j : Nat) (a : α) :
    (g.set i a).get? j = if i = j ∧ g.isValid i = true then some a else g.get? j := by
  cases i with
  | zero => simp [set, isValid]
  | succ i =>
    cases j with
    | zero => simp [get?]
    | succ j =>
      simp only [set, get?, isValid_iff, size, Array.getElem?_setIfInBounds, Nat.succ.injEq]
      split <;> split <;> grind

/-- Adding an item and replacing one that was there before do not interfere. -/
theorem push_set (g : Growing α) {i : Nat} (val : g.isValid i = true) (a b : α) :
    (g.set i a).push b = (g.push b).set i a := by
  obtain ⟨pos, le⟩ := isValid_iff.mp val
  obtain ⟨i, rfl⟩ := Nat.exists_eq_add_of_le' pos
  have lt : i < g.items.size := le
  have lt' : i < (g.items.push b).size := Array.size_push b ▸ Nat.lt_succ_of_lt lt
  simp only [set, push, Array.size_setIfInBounds, Growing.mk.injEq, and_true]
  rw [Array.setIfInBounds_def, Array.setIfInBounds_def, dif_pos lt, dif_pos lt', Array.set_push,
    dif_pos lt]

/-- Replacing items at two indices can be done in either order. -/
theorem set_set_comm (g : Growing α) {i j : Nat} (ne : i ≠ j) (a b : α) :
    (g.set i a).set j b = (g.set j b).set i a := by
  cases i with
  | zero => rfl
  | succ i =>
    cases j with
    | zero => rfl
    | succ j =>
      simp only [set]
      rw [Array.setIfInBounds_comm]
      omega

/-- Replacing an item by itself changes nothing. -/
theorem set_get (g : Growing α) {i : Nat} {a : α} (hg : g.get? i = some a) : g.set i a = g := by
  cases i with
  | zero => rfl
  | succ i =>
    obtain ⟨lt, rfl⟩ := Array.getElem?_eq_some_iff.mp hg
    rw [set, Array.setIfInBounds_def, dif_pos lt, Array.set_getElem_self]

end Growing
end TermHeap
