import TermHeap.Store.Basic

/-!
# How a store is shown

`render` writes the term at an address the way it would be written in a program. The heap need not
be sound: what cannot be read is written as `$bad(address)`, a signature that stands where a value
should be as `$sig(name/arity)`. `renderRaw` lists the cells of a range of addresses one by one.

The pieces of a worklist carry the number of list pairs and records that may still open on the way
down. It starts with the number of cells, so it runs out only on a structure without end.
-/

namespace TermHeap.Store

/-! ### Names of variables -/

/-- The `n`-th name tried for an unnamed variable: `_a`, then `_a_1`, `_a_2` and so on. -/
def candidateName (a : Addr) (n : Nat) : String :=
  if n = 0 then "_" ++ toString a else "_" ++ toString a ++ "_" ++ toString n

/-- The first candidate from the `n`-th on that names no variable, among the next `tries`. -/
def freeName (s : Store) (a : Addr) (n tries : Nat) : String :=
  match tries with
  | 0 => candidateName a n
  | tries + 1 =>
    if (s.findVar? (candidateName a n)).isSome then s.freeName a (n + 1) tries
    else candidateName a n

/-- The name under which the variable at an address is shown: the one it was given, or else the
first candidate that is free. There are more candidates than symbols to be tried, so one is. -/
def varName (s : Store) (a : Addr) : String :=
  match s.vars.name? a with
  | some sym => (s.symbols.name? sym).getD ""
  | none => s.freeName a 0 s.symbols.size

/-! ### Room for terms of bounded depth -/

/-- A bound on the work below `depth` levels of compound terms. It grows by more than the work
that one level can bring. -/
def room : Nat → Nat
  | 0 => 1
  | depth + 1 => 1024 * room depth

/-- There is always room for one term. -/
theorem room_pos (depth : Nat) : 0 < room depth := by
  induction depth with
  | zero => exact Nat.one_pos
  | succ depth ih => exact Nat.mul_pos (by decide) ih

/-- Each level has room for many terms of the next. -/
theorem room_succ (depth : Nat) : room (depth + 1) = 1024 * room depth := rfl

/-! ### Terms -/

/-- A signature as text. -/
def signatureText (s : Store) (f : Signature) : Except Fault String := do
  let name ← s.symbols.name f.name
  return name ++ "/" ++ toString f.arity

/-- What stands for a cell that cannot be read. -/
def badText (a : Addr) : String := "$bad(" ++ toString a ++ ")"

/-- A term down to its first level. -/
inductive Shape where
  /-- A term without parts, as text. -/
  | leaf (text : String)
  /-- A record: its name, the address of its first argument, and how many arguments follow. -/
  | record (name : String) (first : Addr) (more : Fin maxArity)
  /-- A list pair: the address of its head. The tail is in the next cell. -/
  | pair (car : Addr)

/-- The first level of the record with its signature at `target`. -/
def recordShape (s : Store) (target : Addr) : Except Fault Shape :=
  match s.heap.signature? target with
  | none => .ok (.leaf (badText target))
  | some ⟨sym, 0, _⟩ => (s.symbols.name sym).map fun name => .leaf (name ++ "()")
  | some ⟨sym, more + 1, h⟩ =>
    (s.symbols.name sym).map fun name => .record name (target + 1) ⟨more, h⟩

/-- The first level of the term at an address. -/
def shape (s : Store) (a : Addr) : Except Fault Shape :=
  match s.heap.deref a with
  | .error bad => .ok (.leaf (badText bad))
  | .ok (a, .ref _) => .ok (.leaf (s.varName a))
  | .ok (_, .int value) => .ok (.leaf (toString value.toInt))
  | .ok (_, .sym sym) => (s.symbols.name sym).map .leaf
  | .ok (_, .nil) => .ok (.leaf "[]")
  | .ok (_, .sig f) => (s.signatureText f).map fun text => .leaf ("$sig(" ++ text ++ ")")
  | .ok (_, .rcd target) => s.recordShape target
  | .ok (_, .lst car) => .ok (.pair car)

/-- What is still to be shown, and how many compound terms may open below it. -/
inductive Piece where
  /-- The term at an address. -/
  | value (a : Addr) (depth : Nat)
  /-- The rest of an open list, after one of its elements. -/
  | tail (a : Addr) (depth : Nat)
  /-- The next `n` arguments of an open record, after one of them. -/
  | args (a : Addr) (n depth : Nat)
  /-- The bracket that ends a list with a tail of its own. -/
  | close

/-- A bound on the steps that a piece takes. -/
def Piece.weight : Piece → Nat
  | .value _ depth => 2 * room depth
  | .tail _ depth => 2 * room depth + 2
  | .args _ n depth => n * (2 * room depth + 1) + 1
  | .close => 1

/-- A bound on the steps that a worklist takes. -/
def Piece.weights : List Piece → Nat
  | [] => 0
  | p :: ps => p.weight + Piece.weights ps

/-- A record has room for its arguments. -/
theorem args_lt_room (depth : Nat) (more : Fin maxArity) :
    2 * room depth + (more.val * (2 * room depth + 1) + 1) < 2 * room (depth + 1) := by
  have hp := room_pos depth
  have hn : more.val * (2 * room depth + 1) ≤ 255 * (2 * room depth + 1) :=
    Nat.mul_le_mul_right _ (Nat.le_of_lt more.isLt)
  rw [room_succ]
  omega

/-- Show the pieces of a worklist after the text `out`. -/
def layout (s : Store) (pending : List Piece) (out : String) : Except Fault String :=
  match pending with
  | [] => .ok out
  | .value a depth :: rest =>
    match s.shape a with
    | .error e => .error e
    | .ok (.leaf text) => layout s rest (out ++ text)
    | .ok (.record name first more) =>
      match depth with
      | 0 => .error .cyclic
      | d + 1 =>
        layout s (.value first d :: .args (first + 1) more d :: rest) (out ++ name ++ "(")
    | .ok (.pair car) =>
      match depth with
      | 0 => .error .cyclic
      | d + 1 => layout s (.value car d :: .tail (car + 1) d :: rest) (out ++ "[")
  | .tail a depth :: rest =>
    match s.heap.deref a with
    | .error bad => layout s rest (out ++ badText bad)
    | .ok (_, .nil) => layout s rest (out ++ "]")
    | .ok (_, .lst car) =>
      match depth with
      | 0 => .error .cyclic
      | d + 1 => layout s (.value car d :: .tail (car + 1) d :: rest) (out ++ ", ")
    | .ok (a, _) => layout s (.value a depth :: .close :: rest) (out ++ " | ")
  | .args _ 0 _ :: rest => layout s rest (out ++ ")")
  | .args a (n + 1) depth :: rest =>
    layout s (.value a depth :: .args (a + 1) n depth :: rest) (out ++ ", ")
  | .close :: rest => layout s rest (out ++ "]")
termination_by Piece.weights pending
decreasing_by
  all_goals simp only [Piece.weights, Piece.weight, Nat.succ_eq_add_one]
  · have := room_pos depth
    omega
  · have := args_lt_room d more
    omega
  · have := room_pos d
    have := room_succ d
    omega
  · omega
  · omega
  · have := room_pos d
    have := room_succ d
    omega
  · omega
  · omega
  · have := Nat.add_one_mul n (2 * room depth + 1)
    omega
  · omega

/-- The term at an address as text. -/
def render (s : Store) (a : Addr) : Except Fault String := layout s [.value a s.heap.size] ""

/-! ### Cells -/

/-- A cell by itself, with the name of the variable that a reference points at. -/
def cellText (s : Store) : Cell → Except Fault String
  | .ref target => .ok ("Ref(" ++ s.varName target ++ "@" ++ toString target ++ ")")
  | .rcd target => .ok ("Rcd(" ++ toString target ++ ")")
  | .int value => .ok ("Int(" ++ toString value.toInt ++ ")")
  | .sym sym => do return "Sym(" ++ (← s.symbols.name sym) ++ ")"
  | .sig f => do return "Sig(" ++ (← s.signatureText f) ++ ")"
  | .lst car => .ok ("Lst(" ++ toString car ++ ")")
  | .nil => .ok "Nil"

/-- A cell in a listing of the heap. -/
def rawText (s : Store) : Cell → Except Fault String
  | .ref target => .ok ("REF:" ++ toString target)
  | .rcd target => .ok ("RCD:" ++ toString target)
  | .int value => .ok ("INT:" ++ toString value.toInt)
  | .sym sym => do return "SYM:" ++ (← s.symbols.name sym)
  | .sig f => do return "SIG:" ++ (← s.signatureText f)
  | .lst car => .ok ("LST:" ++ toString car)
  | .nil => .ok "NIL"

/-- List `n` cells from an address on, each after `separator`, which is ", " from then on. -/
def rawFrom (s : Store) (a : Addr) (n : Nat) (separator out : String) : Except Fault String :=
  match n with
  | 0 => .ok out
  | n + 1 =>
    match s.read a with
    | .error e => .error e
    | .ok c =>
      match s.rawText c with
      | .error e => .error e
      | .ok text => s.rawFrom (a + 1) n ", " (out ++ separator ++ text)

/-- A listing of the cells from one address up to another, which is not included. -/
def renderRaw (s : Store) (first stop : Addr) : Except Fault String := do
  return (← s.rawFrom first (stop - first) "" "[") ++ "]"

/-- A listing of the whole heap. -/
def renderHeap (s : Store) : Except Fault String := s.renderRaw 1 s.heap.top

/-- The sizes of the parts of a store. -/
def status (s : Store) : String :=
  "Mem\x7bHeapSize=" ++ toString s.heap.size
    ++ ",HeapCapacity=" ++ toString s.heap.cells.capacity
    ++ ",NumSyms=" ++ toString s.symbols.size
    ++ ",NumVarNames=" ++ toString s.vars.size ++ "\x7d\n"

end TermHeap.Store
