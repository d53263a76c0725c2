import TermHeap.Heap.Basic
import TermHeap.Store.Symbols
import TermHeap.Store.Variables

/-!
# Stores

A store is a heap with the symbols that its cells refer to and the names of its variables.
-/

namespace TermHeap

/-- A heap, its symbols and the names of its variables. -/
@[ext]
structure Store where
  heap : Heap
  symbols : Symbols
  vars : Variables
deriving Inhabited

namespace Store

/-- The store without cells and names. -/
def empty (capacity : Nat) : Store := ⟨.empty capacity, .empty, .empty⟩

/-! ### Cells -/

/-- Allocate a cell. -/
def alloc (s : Store) (c : Cell) : Store := { s with heap := s.heap.push c }

/-- Allocate a cell and return its address. -/
def push (s : Store) (c : Cell) : Addr × Store :=
  let a := s.heap.top
  (a, s.alloc c)

/-- The cell at an address, which must exist. -/
def read (s : Store) (a : Addr) : Except Fault Cell :=
  match s.heap.read? a with
  | some c => .ok c
  | none => .error .noCell

/-- Overwrite the cell at an address, which must exist. -/
def write (s : Store) (a : Addr) (c : Cell) : Except Fault Store :=
  if s.heap.isValid a then .ok { s with heap := s.heap.write a c } else .error .noCell

/-- Bind the variable at `a` to the cell at `target`. -/
def bind (s : Store) (a target : Addr) : Except Fault Store :=
  s.write a (s.heap.refTo target)

/-- The end of the references from an address, all of which must exist. -/
def resolve (s : Store) (a : Addr) : Except Fault (Addr × Cell) :=
  match s.heap.deref a with
  | .ok found => .ok found
  | .error _ => .error .noCell

/-! ### Symbols -/

/-- The symbol of a name, which is added if it is new. -/
def intern (s : Store) (name : String) : Symbol × Store :=
  match s with
  | ⟨heap, symbols, vars⟩ =>
    let (sym, symbols) := symbols.intern name
    (sym, ⟨heap, symbols, vars⟩)

/-- The signature of a name and an arity. -/
def internSignature (s : Store) (name : String) (arity : Nat) : Except Fault (Signature × Store) :=
  let (sym, s) := s.intern name
  match Signature.of? sym arity with
  | some f => .ok (f, s)
  | none => .error .arityTooLarge

/-! ### Variables -/

/-- Allocate an unbound variable. -/
def pushFresh (s : Store) : Addr × Store :=
  let a := s.heap.top
  (a, s.alloc (.ref a))

/-- Give a name to the variable at an address. -/
def assignName (s : Store) (a : Addr) (name : String) : Store :=
  let (sym, s) := s.intern name
  match s with
  | ⟨heap, symbols, vars⟩ => ⟨heap, symbols, vars.assign a sym⟩

/-- The variable with a name. -/
def findVar? (s : Store) (name : String) : Option Addr :=
  match s.symbols.find? name with
  | none => none
  | some sym => s.vars.addr? sym

/-- Allocate a cell for a named variable: a reference to the variable that has the name, or else
a new variable with that name. -/
def pushVar (s : Store) (name : String) : Addr × Store :=
  match s.findVar? name with
  | some existing => s.push (s.heap.refTo existing)
  | none =>
    let (a, s) := s.pushFresh
    (a, s.assignName a name)

/-- The cell that the variable with a name stands for. -/
def varCell? (s : Store) (name : String) : Option Cell :=
  match s.findVar? name with
  | none => none
  | some a =>
    match s.heap.deref a with
    | .ok (_, c) => some c
    | .error _ => none

end Store
end TermHeap
