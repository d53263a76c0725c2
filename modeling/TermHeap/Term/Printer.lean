import TermHeap.Term.Basic

/-!
# The written form of a term

Records are written `f(a, b)`, lists `[a, b]` or `[a, b | t]`, the anonymous variable `_`. The
text is laid out from a worklist of pieces, so terms of any depth can be written.
-/

namespace TermHeap.Term

/-- What is still to be written. -/
inductive Piece where
  /-- A whole term. -/
  | term (t : Term)
  /-- The rest of an open list, after one of its elements. -/
  | tail (t : Term)
  /-- The rest of an open record, after one of its arguments. -/
  | args (ts : List Term)
  /-- The bracket that ends a list with a tail of its own. -/
  | close

namespace Piece

/-- The number of nodes still to be written. -/
def size : Piece → Nat
  | .term t => t.size
  | .tail t => t.size
  | .args ts => sizeAll ts
  | .close => 0

/-- The number of pieces that may come out of this one before a node is written. -/
def slack : Piece → Nat
  | .term _ => 0
  | .tail _ => 2
  | .args ts => ts.length + 1
  | .close => 1

/-- The number of nodes of a worklist. -/
def sizes : List Piece → Nat
  | [] => 0
  | p :: ps => p.size + sizes ps

/-- The slack of a worklist. -/
def slacks : List Piece → Nat
  | [] => 0
  | p :: ps => p.slack + slacks ps

end Piece

/-- The name of a variable as written. -/
def varText (name : String) : String := if name.isEmpty then "_" else name

/-- Write the pieces of a worklist after the text `out`. -/
def layout (pending : List Piece) (out : String) : String :=
  match pending with
  | [] => out
  | .term (.int value) :: rest => layout rest (out ++ toString value.toInt)
  | .term (.sym name) :: rest => layout rest (out ++ name)
  | .term (.var name) :: rest => layout rest (out ++ varText name)
  | .term .nil :: rest => layout rest (out ++ "[]")
  | .term (.record name []) :: rest => layout rest (out ++ name ++ "()")
  | .term (.record name (a :: as)) :: rest =>
    layout (.term a :: .args as :: rest) (out ++ name ++ "(")
  | .term (.cons car cdr) :: rest => layout (.term car :: .tail cdr :: rest) (out ++ "[")
  | .tail .nil :: rest => layout rest (out ++ "]")
  | .tail (.cons car cdr) :: rest => layout (.term car :: .tail cdr :: rest) (out ++ ", ")
  | .tail t :: rest => layout (.term t :: .close :: rest) (out ++ " | ")
  | .args [] :: rest => layout rest (out ++ ")")
  | .args (a :: as) :: rest => layout (.term a :: .args as :: rest) (out ++ ", ")
  | .close :: rest => layout rest (out ++ "]")
termination_by (Piece.sizes pending, Piece.slacks pending)
decreasing_by
  all_goals
    simp [Prod.lex_def, Piece.sizes, Piece.slacks, Piece.size, Piece.slack, size, sizeAll]
  all_goals omega

/-- The written form of a term. -/
def render (t : Term) : String := layout [.term t] ""

end TermHeap.Term
