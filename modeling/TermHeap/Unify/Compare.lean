import TermHeap.Heap.Basic

/-!
# Comparing two addresses

What the cells at two addresses ask for, seen one level deep: nothing, a binding, the comparison
of their parts, or that they cannot be made equal. Nothing is written here.
-/

namespace TermHeap

/-- What has to be done to make the terms at two addresses equal. -/
inductive Verdict where
  /-- Nothing. -/
  | same
  /-- Bind the unbound variable at `var` to the cell at `target`. -/
  | bind (var target : Addr)
  /-- They cannot be made equal. -/
  | clash
  /-- Make the `n` neighbouring terms from `a` on equal to those from `b` on. -/
  | parts (a b : Addr) (n : Nat)
deriving DecidableEq, Repr

/-- What a comparison came across that is worth telling. -/
inductive Notice where
  /-- Two signatures stand where values should be. -/
  | signatures (a b : Addr)
  /-- Two records have these signatures. -/
  | records (f g : Signature)
  /-- The record at `cell` points at a cell that is no signature. -/
  | badRecord (cell target : Addr)
deriving DecidableEq, Repr

namespace Heap

/-- Compare two constants. -/
def verdictOf (equal : Bool) : Verdict := if equal then .same else .clash

/-- Compare the records in the cells at `a` and `b`. -/
def compareRecords (h : Heap) (a targetA b targetB : Addr) : Verdict × Option Notice :=
  match h.signature? targetA with
  | none => (.clash, some (.badRecord a targetA))
  | some f =>
    match h.signature? targetB with
    | none => (.clash, some (.badRecord b targetB))
    | some g =>
      (if f = g then .parts (targetA + 1) (targetB + 1) f.arity else .clash, some (.records f g))

/-- Compare two different cells at the ends of references. The first of two unbound variables is
bound to the second. Constants are the same if their cells are equal, and cells of different kinds
never are. -/
def compareCells (h : Heap) (a : Addr) (ca : Cell) (b : Addr) (cb : Cell) :
    Verdict × Option Notice :=
  match ca, cb with
  | .ref _, _ => (.bind a b, none)
  | _, .ref _ => (.bind b a, none)
  | .sig f, .sig g => (verdictOf (f = g), some (.signatures a b))
  | .rcd x, .rcd y => h.compareRecords a x b y
  | .lst x, .lst y => (.parts x y 2, none)
  | ca, cb => (verdictOf (ca = cb), none)

/-- Compare the terms at two addresses one level deep, or `none` if references from one of them
have no end. -/
def compare? (h : Heap) (a b : Addr) : Option (Verdict × Option Notice) :=
  match h.deref a, h.deref b with
  | .ok (a, ca), .ok (b, cb) => some (if a = b then (.same, none) else h.compareCells a ca b cb)
  | _, _ => none

end Heap
end TermHeap
