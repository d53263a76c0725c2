import TermHeap.Cell.Basic
import TermHeap.Store.Fault

/-!
# The symbol table

Distinct names in order of first use. A symbol is the position of its name.
-/

namespace TermHeap

/-- The names of the symbols. -/
structure Symbols where
  names : Array String
deriving Repr, Inhabited

namespace Symbols

/-- The table without names. -/
def empty : Symbols := ⟨#[]⟩

/-- The number of symbols. -/
def size (s : Symbols) : Nat := s.names.size

/-- The symbol of a name that is in the table. -/
def find? (s : Symbols) (name : String) : Option Symbol :=
  (s.names.findIdx? (· == name)).map Symbol.mk

/-- The symbol of a name, which is added to the table if it is new. -/
def intern (s : Symbols) (name : String) : Symbol × Symbols :=
  match s.find? name with
  | some sym => (sym, s)
  | none =>
    let index := s.size
    (⟨index⟩, ⟨s.names.push name⟩)

/-- The name of a symbol. -/
def name? (s : Symbols) (sym : Symbol) : Option String := s.names[sym.index]?

/-- The name of a symbol, which must be in the table. -/
def name (s : Symbols) (sym : Symbol) : Except Fault String :=
  match s.name? sym with
  | some name => .ok name
  | none => .error .noSymbol

end Symbols
end TermHeap
