import TermHeap.Term.Printer

/-!
# Clauses

A clause has a head and a body of goals; without goals it is a fact. It is known by the name and
the arity of its head.
-/

namespace TermHeap

/-- A head and the goals that it rests on. -/
structure Clause where
  head : Term
  body : List Term
deriving Repr, Inhabited

namespace Clause

/-- The name of the head. -/
def name (c : Clause) : String := c.head.name

/-- The arity of the head. -/
def arity (c : Clause) : Nat := c.head.arity

/-- Whether there are no goals. -/
def isFact (c : Clause) : Bool := c.body.isEmpty

/-- The written form of a clause: `head.` or `head :- goal, goal.` -/
def render (c : Clause) : String :=
  if c.isFact then c.head.render ++ "."
  else c.head.render ++ " :- " ++ String.intercalate ", " (c.body.map Term.render) ++ "."

end Clause
end TermHeap
