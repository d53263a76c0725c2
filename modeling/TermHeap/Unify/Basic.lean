import TermHeap.Store.Fault
import TermHeap.Unify.Compare

/-!
# Unification

Make the terms at two addresses equal by binding variables. Bindings are written into the heap and
stay there, also when the terms turn out not to be unifiable. A variable may be bound to a term in
which it occurs, so unification need not end: it is run for a given number of steps.

A unifier works off pairs of addresses. The parts of two compound terms are compared before all
other pairs, either from the first to the last or from the last to the first.
-/

namespace TermHeap

/-- The order in which the parts of compound terms are compared. -/
inductive Order where
  | firstToLast
  | lastToFirst
deriving DecidableEq, Repr

/-- Where a unification stands. -/
inductive Status where
  | running
  | success
  | failure
deriving DecidableEq, Repr

/-- The pairs still to be made equal, the steps made, and whether two terms clashed. -/
structure Unifier where
  pending : List (Addr × Addr)
  steps : Nat
  failed : Bool
deriving DecidableEq, Repr, Inhabited

namespace Unifier

/-- The unifier without any task. -/
def idle : Unifier := ⟨[], 0, false⟩

/-- The unifier for the terms at two addresses. -/
def start (a b : Addr) : Unifier := ⟨[(a, b)], 0, false⟩

/-- The status of a unifier. -/
def status (u : Unifier) : Status :=
  if u.failed then .failure else if u.pending.isEmpty then .success else .running

/-- The pairs of `n` neighbouring addresses from `a` and from `b` on. -/
def pairs (order : Order) (a b n : Nat) : List (Addr × Addr) :=
  let ascending := (List.range n).map fun i => (a + i, b + i)
  match order with
  | .firstToLast => ascending
  | .lastToFirst => ascending.reverse

/-- Carry out a verdict on the first pair, after which `rest` is left. -/
def apply (order : Order) (rest : List (Addr × Addr)) (steps : Nat) (h : Heap) :
    Verdict → Unifier × Heap
  | .same => (⟨rest, steps, false⟩, h)
  | .bind var target => (⟨rest, steps, false⟩, h.write var (.ref target))
  | .clash => (⟨[], steps, true⟩, h)
  | .parts a b n => (⟨pairs order a b n ++ rest, steps, false⟩, h)

/-- Work off one pair, if there is one. -/
def step (order : Order) (u : Unifier) (h : Heap) : Except Fault (Unifier × Heap) :=
  if u.failed then .ok (u, h)
  else
    match u.pending with
    | [] => .ok (u, h)
    | (a, b) :: rest =>
      match h.compare? a b with
      | none => .error .noCell
      | some (verdict, _) => .ok (apply order rest (u.steps + 1) h verdict)

/-- Work off pairs until there are none or `fuel` steps were made. -/
def run (order : Order) (fuel : Nat) (u : Unifier) (h : Heap) : Except Fault (Unifier × Heap) :=
  match fuel with
  | 0 => .ok (u, h)
  | fuel + 1 =>
    if u.status = .running then
      match u.step order h with
      | .error e => .error e
      | .ok (u, h) => run order fuel u h
    else .ok (u, h)

end Unifier
end TermHeap
