import TermHeap.Store.Display
import TermHeap.Term.Basic

/-!
# Reading a term from the heap

The term at an address, with bound variables replaced by what they are bound to. The heap is not
trusted: whatever is wrong with a cell on the way is reported with its address, the leftmost
fault first. A stack of tasks and a stack of finished terms take the place of recursion.
-/

namespace TermHeap

/-- Why no term can be read. -/
inductive ReadError where
  /-- There is no cell at the address, its references have no end, or its symbol is unknown. -/
  | badCell (a : Addr)
  /-- A record points at a cell that is no signature. -/
  | notSignature (a : Addr)
  /-- A signature stands where a value should be. -/
  | signatureAsValue (a : Addr)
  /-- The structure has no end. -/
  | cyclic (a : Addr)
deriving DecidableEq, Repr

namespace ReadError

/-- The address at which reading failed. -/
def addr : ReadError → Addr
  | .badCell a => a
  | .notSignature a => a
  | .signatureAsValue a => a
  | .cyclic a => a

/-- What went wrong, as text. -/
def reason : ReadError → String
  | .badCell _ => "Bad cell read"
  | .notSignature _ => "Expected RCD to point to SIG"
  | .signatureAsValue _ => "A SIG is not a value"
  | .cyclic _ => "Cyclic structure"

/-- The message of an error. -/
def message (e : ReadError) : String := e.reason ++ " at " ++ toString e.addr

end ReadError

namespace Store

/-- A step of reading. -/
inductive Task where
  /-- Read the term at an address, below which some compound terms may open. -/
  | visit (a : Addr) (depth : Nat)
  /-- Make a record of the last `n` terms. -/
  | record (name : String) (n : Nat)
  /-- Make a list pair of the last two terms. -/
  | pair

/-- A bound on the steps that a task takes. -/
def Task.weight : Task → Nat
  | .visit _ depth => 2 * room depth
  | .record _ _ => 1
  | .pair => 1

/-- A bound on the steps that a stack of tasks takes. -/
def Task.weights : List Task → Nat
  | [] => 0
  | t :: ts => t.weight + Task.weights ts

/-- Visits to `n` neighbouring addresses, then other tasks. -/
def visitAll (a : Addr) (n depth : Nat) (rest : List Task) : List Task :=
  (List.range' a n).map (Task.visit · depth) ++ rest

/-- Visits to neighbouring addresses weigh the same each. -/
theorem weights_visitAll (a : Addr) (n depth : Nat) (rest : List Task) :
    Task.weights (visitAll a n depth rest) = n * (2 * room depth) + Task.weights rest := by
  induction n generalizing a with
  | zero => simp [visitAll]
  | succ n ih =>
    have := ih (a + 1)
    simp only [visitAll] at this
    simp only [visitAll, List.range'_succ, List.map_cons, List.cons_append, Task.weights,
      Task.weight, this, Nat.add_one_mul]
    omega

/-- The term of an unbound variable: a variable is anonymous unless it was given a name that does
not begin with an underscore. -/
def readVar (s : Store) (a : Addr) : Term :=
  let name := s.varName a
  if name.toList.head?.all (· = '_') then .anonymous else .var name

/-- Carry out the tasks on top of the finished terms, of which the latest comes first. -/
def readTasks (s : Store) (tasks : List Task) (done : List Term) : Except ReadError Term :=
  match tasks with
  | [] => .ok (done.headD .nil)
  | .record name n :: rest =>
    readTasks s rest (.record name (done.take n).reverse :: done.drop n)
  | .pair :: rest =>
    match done with
    | cdr :: car :: done => readTasks s rest (.cons car cdr :: done)
    | _ => readTasks s rest []
  | .visit a depth :: rest =>
    match s.heap.deref a with
    | .error bad => .error (.badCell bad)
    | .ok (a, .ref _) => readTasks s rest (s.readVar a :: done)
    | .ok (_, .int value) => readTasks s rest (.int value :: done)
    | .ok (_, .nil) => readTasks s rest (.nil :: done)
    | .ok (a, .sig _) => .error (.signatureAsValue a)
    | .ok (a, .sym sym) =>
      match s.symbols.name? sym with
      | none => .error (.badCell a)
      | some name => readTasks s rest (.sym name :: done)
    | .ok (a, .rcd target) =>
      match s.heap.read? target with
      | none => .error (.badCell target)
      | some (.sig f) =>
        match s.symbols.name? f.name, depth with
        | none, _ => .error (.badCell target)
        | some _, 0 => .error (.cyclic a)
        | some name, d + 1 =>
          readTasks s (visitAll (target + 1) f.arity d (.record name f.arity :: rest)) done
      | some _ => .error (.notSignature target)
    | .ok (a, .lst car) =>
      match depth with
      | 0 => .error (.cyclic a)
      | d + 1 => readTasks s (.visit car d :: .visit (car + 1) d :: .pair :: rest) done
termination_by Task.weights tasks
decreasing_by
  all_goals simp only [Task.weights, Task.weight, weights_visitAll, Nat.succ_eq_add_one]
  · omega
  · omega
  · omega
  · have := room_pos depth
    omega
  · have := room_pos depth
    omega
  · have := room_pos depth
    omega
  · have := room_pos depth
    omega
  · have := room_pos d
    have := room_succ d
    have : f.arity * (2 * room d) ≤ 255 * (2 * room d) := Nat.mul_le_mul_right _ f.arity_le
    omega
  · have := room_pos d
    have := room_succ d
    omega

/-- The term at an address. -/
def readTerm (s : Store) (a : Addr) : Except ReadError Term :=
  readTasks s [.visit a s.heap.size] []

end Store
end TermHeap
