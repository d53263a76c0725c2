import TermHeap.Store.Basic
import TermHeap.Term.Basic

/-!
# Laying a term onto the heap

Each node of a term gets one cell. A record or list pair first gets a placeholder and joins a
queue; when its turn comes its parts are laid on top of the heap, next to each other, and then the
placeholder is pointed at them. So a term is laid level by level. The main statement is
`queueSize_fill_lt`: filling in a record or pair queues fewer nodes than it takes from the queue,
so the work ends.
-/

namespace TermHeap

/-- A record or list pair whose parts have no cells yet. -/
inductive Pending where
  | record (cell : Addr) (name : String) (args : List Term)
  | pair (cell : Addr) (car cdr : Term)

namespace Pending

/-- The cell that waits to be filled in. -/
def cell : Pending → Addr
  | .record cell _ _ => cell
  | .pair cell _ _ => cell

/-- What the cell becomes when it is pointed at an address. -/
def pointing (target : Addr) : Pending → Cell
  | .record _ _ _ => .rcd target
  | .pair _ _ _ => .lst target

/-- The term whose parts are to be laid. -/
def term : Pending → Term
  | .record _ name args => .record name args
  | .pair _ car cdr => .cons car cdr

/-- The number of nodes of a queued term. -/
def size (p : Pending) : Nat := p.term.size

/-- The number of nodes of a queue. -/
def queueSize : List Pending → Nat
  | [] => 0
  | p :: queue => p.size + queueSize queue

/-- The nodes of two queues add up. -/
theorem queueSize_append (p q : List Pending) :
    queueSize (p ++ q) = queueSize p + queueSize q := by
  induction p with
  | nil => simp [queueSize]
  | cons a p ih => simp [queueSize, ih, Nat.add_assoc]

/-- Turning a queue around keeps its nodes. -/
theorem queueSize_reverse (q : List Pending) : queueSize q.reverse = queueSize q := by
  induction q with
  | nil => rfl
  | cons a q ih => simp [queueSize, queueSize_append, ih, Nat.add_comm]

end Pending

namespace Store

open Pending (queueSize)

/-- Lay down the cell of a term. A compound term gets a placeholder and is put in front of
`queued`, the terms queued so far with the latest first. -/
def place (s : Store) (queued : List Pending) (t : Term) : Store × List Pending :=
  match t with
  | .int value => (s.alloc (.int value), queued)
  | .nil => (s.alloc .nil, queued)
  | .sym name =>
    let (sym, s) := s.intern name
    (s.alloc (.sym sym), queued)
  | .var name =>
    if name.isEmpty then (s.pushFresh.2, queued) else ((s.pushVar name).2, queued)
  | .record name args =>
    let cell := s.heap.top
    (s.alloc (.rcd 0), .record cell name args :: queued)
  | .cons car cdr =>
    let cell := s.heap.top
    (s.alloc (.lst 0), .pair cell car cdr :: queued)

/-- Lay down the cells of several terms next to each other. -/
def placeAll (s : Store) (queued : List Pending) : List Term → Store × List Pending
  | [] => (s, queued)
  | t :: ts =>
    let (s, queued) := s.place queued t
    s.placeAll queued ts

/-- Lay down what is in front of the parts of a queued term, which is the signature of a record, and
return where the term is to point. -/
def addHeader (s : Store) : Pending → Except Fault (Addr × Store)
  | .record _ name args =>
    match s.internSignature name args.length with
    | .error e => .error e
    | .ok (f, s) => .ok (s.push (.sig f))
  | .pair _ _ _ => .ok (s.heap.top, s)

/-- Lay down the parts of a queued term and point its cell at them. Also returns what is queued
then. -/
def fill (s : Store) (queued : List Pending) (p : Pending) : Except Fault Store × List Pending :=
  match s.addHeader p with
  | .error e => (.error e, queued)
  | .ok (target, s) =>
    let (s, queued) := s.placeAll queued p.term.args
    (s.write p.cell (p.pointing target), queued)

/-- Placing a term queues no more nodes than it has. -/
theorem queueSize_place_le (s : Store) (queued : List Pending) (t : Term) :
    queueSize (s.place queued t).2 ≤ t.size + queueSize queued := by
  cases t <;> simp [place, queueSize, Pending.size, Pending.term, Term.size]
  split <;> simp

/-- Placing terms queues no more nodes than they have. -/
theorem queueSize_placeAll_le (s : Store) (queued : List Pending) (ts : List Term) :
    queueSize (s.placeAll queued ts).2 ≤ Term.sizeAll ts + queueSize queued := by
  induction ts generalizing s queued with
  | nil => simp [placeAll, Term.sizeAll]
  | cons t ts ih =>
    have h₁ := queueSize_place_le s queued t
    have h₂ := ih (s.place queued t).1 (s.place queued t).2
    simp only [placeAll, Term.sizeAll]
    omega

/-- Filling in a queued term queues fewer nodes than it has. -/
theorem queueSize_fill_lt (s : Store) (queued : List Pending) (p : Pending) :
    queueSize (s.fill queued p).2 < p.size + queueSize queued := by
  rw [fill, Pending.size]
  split
  · exact Nat.lt_add_of_pos_left p.term.size_pos
  · rename_i target s₁ _
    have le := queueSize_placeAll_le s₁ queued p.term.args
    have lt := p.term.sizeAll_args_lt
    exact Nat.lt_of_le_of_lt le (Nat.add_lt_add_right lt _)

/-- Fill in the queued terms, first those of `front` in order, then those of `back`, of which the
last was queued first. -/
def drain (s : Store) (front back : List Pending) : Except Fault Store :=
  match front, back with
  | [], [] => .ok s
  | [], b :: bs => s.drain (b :: bs).reverse []
  | p :: front, back =>
    let filled := s.fill back p
    match filled.1 with
    | .error e => .error e
    | .ok s' => s'.drain front filled.2
termination_by (queueSize front + queueSize back, back.length)
decreasing_by
  · simp only [Prod.lex_def, Pending.queueSize_reverse]
    exact Or.inr ⟨by simp [queueSize], by simp⟩
  · have := s.queueSize_fill_lt back p
    simp only [Prod.lex_def]
    left
    simp only [queueSize] at *
    omega

/-- Lay a term onto the heap and return the address of its first cell. -/
def addTerm (s : Store) (t : Term) : Except Fault (Addr × Store) :=
  let root := s.heap.top
  let (s, queued) := s.place [] t
  match s.drain queued [] with
  | .error e => .error e
  | .ok s => .ok (root, s)

end Store
end TermHeap
