import TermHeap.HashTable.Basic

/-!
# Named variables

The names that variables were written with: from a symbol to the address of the variable last
named so, and from an address to the symbol that it was last given.
-/

namespace TermHeap

/-- The two directions of the naming of variables. -/
structure Variables where
  byName : HashTable Symbol Addr
  byAddr : HashTable Addr Symbol
deriving Repr, Inhabited

namespace Variables

/-- No names yet. -/
def empty : Variables := ⟨.empty 17, .empty 17⟩

/-- Give a name to the variable at an address. -/
def assign (v : Variables) (a : Addr) (name : Symbol) : Variables :=
  ⟨v.byName.put name a, v.byAddr.put a name⟩

/-- The variable with a name. -/
def addr? (v : Variables) (name : Symbol) : Option Addr := v.byName.get? name

/-- The name of a variable. -/
def name? (v : Variables) (a : Addr) : Option Symbol := v.byAddr.get? a

/-- The number of variables that have a name. -/
def size (v : Variables) : Nat := v.byAddr.numEntries

end Variables
end TermHeap
