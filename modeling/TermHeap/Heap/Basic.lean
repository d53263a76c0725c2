import TermHeap.Cell.Word
import TermHeap.Growing

/-!
# The heap

Cells in order of allocation. Cells are never removed or moved; they are written in place when a
placeholder is filled in and when a variable is bound. `deref` follows reference cells and gives
up after as many steps as there are cells, when it must have come to a cell twice.
-/

namespace TermHeap

/-- A heap of cells. -/
structure Heap where
  cells : Growing Cell
deriving Repr, Inhabited

namespace Heap

/-- A heap without cells, with storage for a number of them. -/
def empty (capacity : Nat) : Heap := ⟨.empty capacity⟩

/-- The number of cells. -/
def size (h : Heap) : Nat := h.cells.size

/-- The address that the next cell will get. -/
def top (h : Heap) : Addr := h.size + 1

/-- Whether there is a cell at an address. -/
def isValid (h : Heap) (a : Addr) : Bool := h.cells.isValid a

/-- The cell at an address. -/
def read? (h : Heap) (a : Addr) : Option Cell := h.cells.get? a

/-- Allocate a cell. -/
def push (h : Heap) (c : Cell) : Heap := ⟨h.cells.push c⟩

/-- Overwrite the cell at an address; nothing changes if there is none. -/
def write (h : Heap) (a : Addr) (c : Cell) : Heap := ⟨h.cells.set a c⟩

/-- The reference to an address. The address of a cell always fits into a word; another address
loses the bits that do not. -/
def refTo (h : Heap) (a : Addr) : Cell := if h.isValid a then .ref a else (Cell.ref a).narrow

/-- Follow references from an address for at most `steps` steps. -/
def derefWithin (h : Heap) (steps : Nat) (a : Addr) : Except Addr (Addr × Cell) :=
  match h.read? a with
  | none => .error a
  | some (.ref next) =>
    if next = a then .ok (a, .ref next)
    else
      match steps with
      | 0 => .error a
      | steps + 1 => h.derefWithin steps next
  | some c => .ok (a, c)

/-- The unbound variable or the cell of another kind at the end of the references from an
address, with its address. Fails with the first address that has no cell, or with an address
of a cycle of references. -/
def deref (h : Heap) (a : Addr) : Except Addr (Addr × Cell) := h.derefWithin h.size a

/-- The signature at an address, or `none` if another cell or no cell is there. -/
def signature? (h : Heap) (a : Addr) : Option Signature :=
  match h.read? a with
  | some (.sig f) => some f
  | _ => none

/-! ### What the operations do to the cells -/

/-- Allocating adds one cell. -/
@[simp] theorem size_push (h : Heap) (c : Cell) : (h.push c).size = h.size + 1 :=
  h.cells.size_push c

/-- Writing adds no cell. -/
@[simp] theorem size_write (h : Heap) (a : Addr) (c : Cell) : (h.write a c).size = h.size :=
  h.cells.size_set a c

/-- The addresses of cells are those from 1 to the size of the heap. -/
theorem isValid_iff {h : Heap} {a : Addr} : h.isValid a = true ↔ 1 ≤ a ∧ a ≤ h.size :=
  Growing.isValid_iff

/-- The addresses of cells are those that can be read. -/
theorem isSome_read? (h : Heap) (a : Addr) : (h.read? a).isSome = h.isValid a :=
  h.cells.isSome_get? a

/-- A new cell is at the address that was the top, and the others stay as they are. -/
theorem read?_push (h : Heap) (c : Cell) (a : Addr) :
    (h.push c).read? a = if a = h.top then some c else h.read? a := h.cells.get?_push c a

/-- Writing changes the cell at that address only. -/
theorem read?_write (h : Heap) (a b : Addr) (c : Cell) :
    (h.write a c).read? b = if a = b ∧ h.isValid a = true then some c else h.read? b :=
  h.cells.get?_set a b c

/-- Allocating a cell and writing to one that was there before do not interfere. -/
theorem push_write (h : Heap) {a : Addr} (val : h.isValid a = true) (c d : Cell) :
    (h.write a c).push d = (h.push d).write a c :=
  congrArg Heap.mk (h.cells.push_set val c d)

/-- Cells at two addresses can be written in either order. -/
theorem write_comm (h : Heap) {a b : Addr} (ne : a ≠ b) (c d : Cell) :
    (h.write a c).write b d = (h.write b d).write a c :=
  congrArg Heap.mk (h.cells.set_set_comm ne c d)

/-- Writing the cell that is there already changes nothing. -/
theorem write_self {h : Heap} {a : Addr} {c : Cell} (hr : h.read? a = some c) : h.write a c = h :=
  congrArg Heap.mk (h.cells.set_get hr)

end Heap
end TermHeap
