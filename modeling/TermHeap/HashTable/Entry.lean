/-!
# Linked entries

An association as it stands in a chain that is laid out in one array: beside key and value it
holds the relative index of the entry that follows it in the chain.
-/

namespace TermHeap

/-- A key, its value, and where the chain goes on (0 at its end). -/
structure Entry (κ ν : Type) where
  key : κ
  value : ν
  rest : Nat := 0
deriving DecidableEq, Repr

namespace Entry

variable {κ ν : Type}

/-- The last entry of a chain, for a key that has no value yet. -/
def fresh [Inhabited ν] (key : κ) : Entry κ ν := ⟨key, default, 0⟩

/-- The last entry of a chain. -/
def last (key : κ) (value : ν) : Entry κ ν := ⟨key, value, 0⟩

/-- Let another entry follow. -/
def link (e : Entry κ ν) (rest : Nat) : Entry κ ν := { e with rest }

/-- Change the value in place. -/
def modify (e : Entry κ ν) (f : ν → ν) : Entry κ ν := { e with value := f e.value }

end Entry
end TermHeap
