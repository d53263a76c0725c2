/-!
# Cells

The values that live on the heap. A term is a graph of cells: a record cell points at a
signature cell that is followed by its argument cells, a list cell points at a pair of
neighbouring cells, and an unbound variable is a reference cell that points at itself.
-/

namespace TermHeap

/-- A heap address. The first cell has address 1; address 0 belongs to no cell. -/
abbrev Addr := Nat

/-- An interned name, known by its position in the symbol table. -/
structure Symbol where
  index : Nat
deriving DecidableEq, Repr, Inhabited

/-- The written form of a symbol outside of any symbol table. -/
def Symbol.tagged (s : Symbol) : String := "#" ++ toString s.index

/-- The largest number of arguments a record may have. -/
def maxArity : Nat := 255

/-- The name and the number of arguments of a record. -/
structure Signature where
  name : Symbol
  arity : Nat
  arity_le : arity ≤ maxArity
deriving DecidableEq, Repr

instance : Inhabited Signature := ⟨⟨default, 0, Nat.zero_le _⟩⟩

/-- The signature with a given name and arity, if the arity is within the limit. -/
def Signature.of? (name : Symbol) (arity : Nat) : Option Signature :=
  if h : arity ≤ maxArity then some ⟨name, arity, h⟩ else none

/-- Signatures of equal name and arity are equal. -/
theorem Signature.ext' {f g : Signature} (hn : f.name = g.name) (ha : f.arity = g.arity) :
    f = g := by
  cases f; cases g; simp_all

/-- One cell of the heap. -/
inductive Cell where
  /-- A variable: unbound when it points at itself, else bound to the cell at `target`. -/
  | ref (target : Addr)
  /-- A record: `target` holds its signature, and its arguments follow there. -/
  | rcd (target : Addr)
  /-- An integer constant. -/
  | int (value : Int32)
  /-- An atom. -/
  | sym (name : Symbol)
  /-- The signature of a record. It is no value by itself. -/
  | sig (signature : Signature)
  /-- A list pair: the head is at `car` and the tail in the cell after it. -/
  | lst (car : Addr)
  /-- The empty list. -/
  | nil
deriving DecidableEq, Repr, Inhabited

end TermHeap
