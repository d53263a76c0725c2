/-!
# Faults

The misuses of a store that no operation can answer: they end the work.
-/

namespace TermHeap

/-- Why an operation cannot be carried out. -/
inductive Fault where
  /-- There is no cell at the address. -/
  | noCell
  /-- The symbol is not in the table. -/
  | noSymbol
  /-- The record has more arguments than a signature can tell. -/
  | arityTooLarge
  /-- The structure has no end. -/
  | cyclic
deriving DecidableEq, Repr

end TermHeap
