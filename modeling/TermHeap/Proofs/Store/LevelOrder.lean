import TermHeap.Proofs.Store.Growth
import TermHeap.Store.Build

/-!
# Terms lie on the heap level by level

Nothing is assumed here about the store `s₀` that a term is laid on: its cells may be damaged, and
names may be those of any addresses. `Spread s₀ s p queue q` describes what is then between `p` and
`q`: for the first of the terms in the queue the signature it needs and its parts in a row, and
behind them what there is for the others and for those parts that have parts themselves. It is what
a queue leaves behind when it is drained (`drain_spread`, `addTerm_spread`).

If the names of `s₀` are sound, more is known. Then the store has grown out of `s₀`, a reference to
a named variable points at this variable, and an anonymous variable has no name. These parts are
stated under the condition `s₀.Named`, so that one induction along the queue is enough for both.
-/

namespace TermHeap

/-- The queued form of a term with parts. -/
def Term.pending? (t : Term) (p : Addr) : Option Pending :=
  match t with
  | .record n args => some (.record p n args)
  | .cons car cdr => some (.pair p car cdr)
  | .int _ | .sym _ | .var _ | .nil => none

namespace Pending

/-- The terms with parts among those of a row that begins at an address. -/
def row : Addr → List Term → List Pending
  | _, [] => []
  | p, t :: ts => (t.pending? p).toList ++ row (p + 1) ts

/-- The number of cells in front of the parts: a record has a signature there. -/
def header : Pending → Nat
  | .record _ _ _ => 1
  | .pair _ _ _ => 0

/-- The address of the first part, if `p` is what the cell points at. -/
def first (x : Pending) (p : Addr) : Addr := p + x.header

/-- The address behind the last part, if `p` is what the cell points at. -/
def last (x : Pending) (p : Addr) : Addr := x.first p + x.term.args.length

variable {t : Term} {ts : List Term} {p q : Addr} {x : Pending}

/-- The parts do not begin before what the cell points at. -/
lemma le_first (x : Pending) (p : Addr) : p ≤ x.first p := Nat.le_add_right p _

/-- The parts of a queued term end no earlier than at the address from which they are laid. -/
lemma le_last (x : Pending) (p : Addr) : p ≤ x.last p :=
  Nat.le_trans (x.le_first p) (Nat.le_add_right _ _)

/-- A term is queued at its address. -/
lemma pending?_eq_some (hx : t.pending? p = some x) : x.cell = p ∧ x.term = t := by
  cases t with
  | record n args =>
    cases hx
    exact ⟨rfl, rfl⟩
  | cons car cdr =>
    cases hx
    exact ⟨rfl, rfl⟩
  | _ => cases hx

/-- What is queued of a row is a term of the row at its address. -/
lemma exists_of_mem_row (mem : x ∈ row p ts) :
    ∃ i, ∃ (hi : i < ts.length), ts[i].pending? (p + i) = some x := by
  induction ts generalizing p with
  | nil => cases mem
  | cons t ts ih =>
    rcases List.mem_append.mp mem with mem | mem
    · exact ⟨0, Nat.succ_pos _, Option.mem_toList.mp mem⟩
    · obtain ⟨i, hi, hx⟩ := ih mem
      rw [Nat.add_assoc, Nat.add_comm 1] at hx
      exact ⟨i + 1, Nat.succ_lt_succ hi, hx⟩

/-- A term of a row that has parts is queued. -/
lemma mem_row {i : Nat} (hi : i < ts.length) (hx : ts[i].pending? (p + i) = some x) :
    x ∈ row p ts := by
  induction ts generalizing p i with
  | nil => exact absurd hi (Nat.not_lt_zero i)
  | cons t ts ih =>
    cases i with
    | zero => exact List.mem_append_left _ (Option.mem_toList.mpr hx)
    | succ i =>
      refine List.mem_append_right _ (ih (Nat.lt_of_succ_lt_succ hi) ?_)
      rw [Nat.add_assoc, Nat.add_comm 1]
      exact hx

/-- A term of a row that has no parts does not wait. -/
lemma cell_ne_of_leaf {i : Nat} (hi : i < ts.length) (leaf : ts[i].pending? (p + i) = none) :
    ∀ x ∈ row p ts, x.cell ≠ p + i := by
  intro x mem e
  obtain ⟨j, hj, hx⟩ := exists_of_mem_row mem
  obtain rfl : j = i := Nat.add_left_cancel ((pending?_eq_some hx).1.symm.trans e)
  rw [leaf] at hx
  cases hx

/-- What is queued of a row has its cell in the row. -/
lemma cell_of_mem_row (mem : x ∈ row p ts) : p ≤ x.cell ∧ x.cell < p + ts.length := by
  obtain ⟨i, hi, hx⟩ := exists_of_mem_row mem
  rw [(pending?_eq_some hx).1]
  exact ⟨Nat.le_add_right p i, Nat.add_lt_add_left hi p⟩

/-- The cells of a queue, from the first to the last, are at ascending addresses below another. -/
def Ascends (queue : List Pending) (p : Addr) : Prop :=
  queue.Pairwise (fun x y => x.cell < y.cell) ∧ ∀ x ∈ queue, x.cell < p

/-- What is queued of a row is queued in the order of the addresses. -/
lemma ascends_row (p : Addr) (ts : List Term) : Ascends (row p ts) (p + ts.length) := by
  refine ⟨?_, fun x mem => (cell_of_mem_row mem).2⟩
  induction ts generalizing p with
  | nil => exact .nil
  | cons t ts ih =>
    rw [row, List.pairwise_append]
    refine ⟨?_, ih (p + 1), ?_⟩
    · cases t.pending? p <;> simp
    · intro x hx y hy
      rw [(pending?_eq_some (Option.mem_toList.mp hx)).1]
      exact (cell_of_mem_row hy).1

/-- The others in a queue that ascends ascend, too. -/
lemma Ascends.tail {queue : List Pending} (as : Ascends (x :: queue) p) : Ascends queue p :=
  ⟨as.1.tail, fun y mem => as.2 y (List.mem_cons_of_mem _ mem)⟩

/-- When the first of a queue is filled in, its parts join the queue. -/
lemma Ascends.fill {queue : List Pending} (as : Ascends (x :: queue) p) :
    Ascends (queue ++ row (x.first p) x.term.args) (x.last p) := by
  have new := ascends_row (x.first p) x.term.args
  refine ⟨List.pairwise_append.mpr ⟨as.tail.1, new.1, ?_⟩, ?_⟩
  · intro y hy z hz
    have above : x.first p ≤ z.cell := (cell_of_mem_row hz).1
    exact Nat.lt_of_lt_of_le (as.tail.2 y hy) (Nat.le_trans (x.le_first p) above)
  · intro y mem
    rcases List.mem_append.mp mem with mem | mem
    · exact Nat.lt_of_lt_of_le (as.tail.2 y mem) (x.le_last p)
    · exact new.2 y mem

/-- The others, and those that join them, come behind the first of a queue. -/
lemma Ascends.head_lt {queue : List Pending} (as : Ascends (x :: queue) p) :
    ∀ y ∈ queue ++ row (x.first p) x.term.args, x.cell < y.cell := by
  intro y mem
  rcases List.mem_append.mp mem with mem | mem
  · exact List.rel_of_pairwise_cons as.1 mem
  · have above : p ≤ y.cell := Nat.le_trans (x.le_first p) (cell_of_mem_row mem).1
    exact Nat.lt_of_lt_of_le (as.2 x (List.mem_cons_self ..)) above

/-- What is queued already or joins a queue is not at an address at or behind `p` where nothing of
the row that joins it waits. -/
lemma Ascends.cell_ne {queue : List Pending} {a : Addr} (as : Ascends queue p) (le : p ≤ a)
    (none : ∀ y ∈ row q ts, y.cell ≠ a) : ∀ y ∈ queue ++ row q ts, y.cell ≠ a := by
  intro y mem
  rcases List.mem_append.mp mem with mem | mem
  · exact Nat.ne_of_lt (Nat.lt_of_lt_of_le (as.2 y mem) le)
  · exact none y mem

end Pending

namespace Store

variable {s₀ s s' s'' : Store} {p q a target : Addr} {n : String} {t : Term} {ts : List Term}
  {c d : Cell} {x : Pending} {queue queue' : List Pending}

/-! ### What is kept -/

/-- The later store knows the symbols and the variables that the earlier one knew. If names were
sound, it has grown out of the earlier one. -/
structure Remembers (s s' : Store) : Prop where
  symbols : s.symbols.Extends s'.symbols
  found : ∀ {n a}, s.findVar? n = some a → s'.findVar? n = some a
  sound : s'.vars.byName.Sound
  grows : s.Named → s.Grows s'

namespace Remembers

/-- Names that were sound are sound later. -/
lemma named (rm : s.Remembers s') (nm : s.Named) : s'.Named := (rm.grows nm).named

/-- A store remembers itself. -/
lemma refl (sd : s.vars.byName.Sound) : s.Remembers s := ⟨.refl _, id, sd, .refl⟩

/-- What was remembered once is remembered later. -/
lemma trans (rm : s.Remembers s') (rm' : s'.Remembers s'') : s.Remembers s'' :=
  ⟨rm.symbols.trans rm'.symbols, fun hf => rm'.found (rm.found hf), rm'.sound,
    fun nm => (rm.grows nm).trans (rm'.grows (rm.named nm))⟩

/-- Nothing is forgotten when a cell is added. -/
lemma alloc (rm : s.Remembers s') (c : Cell) : s.Remembers (s'.alloc c) :=
  ⟨rm.symbols, rm.found, rm.sound, fun nm => (rm.grows nm).trans (grows_alloc (rm.named nm) c)⟩

/-- Nothing is forgotten when a name is interned. -/
lemma intern (rm : s.Remembers s') (n : String) : s.Remembers (s'.intern n).2 := by
  refine ⟨rm.symbols.trans (s'.symbols.extends_intern n), ?_, rm.sound, ?_⟩
  · intro m a hf
    obtain ⟨k, hk, ha⟩ := findVar?_eq_some.mp (rm.found hf)
    exact findVar?_eq_some.mpr ⟨k, (s'.symbols.extends_intern n).find hk, ha⟩
  · exact fun nm => (rm.grows nm).trans (grows_intern (rm.named nm) n)

/-- Nothing is forgotten when a placeholder is overwritten. -/
lemma write (rm : s.Remembers s') (hd : s'.heap.read? p = some d) (ph : d.IsPlaceholder)
    (c : Cell) : s.Remembers { s' with heap := s'.heap.write p c } :=
  ⟨rm.symbols, rm.found, rm.sound, fun nm => (rm.grows nm).trans (grows_write (rm.named nm) hd ph)⟩

end Remembers

/-- A reference to the variable at `a` points at `q`. This is `a` itself; only if names may be those
of addresses without cells, the bits are lost that a word has no room for. -/
def RefersTo (s₀ : Store) (q a : Addr) : Prop :=
  q = a ∨ ¬ s₀.Named ∧ payloadSpan ≤ a ∧ q = a % payloadSpan

/-- A reference to an address, which is that of a cell if names are sound. -/
lemma exists_refTo (val : s₀.Named → s.heap.isValid a = true) :
    ∃ q, s.heap.refTo a = .ref q ∧ s₀.RefersTo q a := by
  by_cases ok : s.heap.isValid a = true
  · exact ⟨a, Heap.refTo_of_isValid ok, .inl rfl⟩
  · refine ⟨a % payloadSpan, if_neg ok, ?_⟩
    rcases Nat.lt_or_ge a payloadSpan with lt | le
    · exact .inl (Nat.mod_eq_of_lt lt)
    · exact .inr ⟨fun nm => ok (val nm), le, rfl⟩

/-- A variable that is allocated refers to the one that its name stands for from then on. -/
lemma exists_pushVar (rm₀ : s₀.Remembers s) (n : String) :
    s.Remembers (s.pushVar n).2 ∧ ∃ q a, (s.pushVar n).2.heap = s.heap.push (.ref q) ∧
      (s.pushVar n).2.findVar? n = some a ∧ s₀.RefersTo q a := by
  have sd := rm₀.sound
  cases hf : s.findVar? n with
  | some a =>
    have val : s₀.Named → s.heap.isValid a = true := by
      intro nm
      obtain ⟨r, hr⟩ := (rm₀.named nm).findVar?_cell hf
      exact Heap.isValid_of_read? hr
    obtain ⟨q, hq, rt⟩ := exists_refTo val
    rw [pushVar, hf]
    exact ⟨(Remembers.refl sd).alloc _, q, a, congrArg s.heap.push hq, hf, rt⟩
  | none =>
    have other : ∀ {m k}, s.symbols.find? m = some k → k = (s.symbols.intern n).1 → m = n := by
      rintro m k hk rfl
      exact Symbols.name_unique ((s.symbols.extends_intern n).find hk) (s.symbols.find?_intern n)
    have grows := fun nm : s.Named => grows_pushVar_new nm hf
    rw [pushVar_new hf] at grows ⊢
    refine ⟨⟨s.symbols.extends_intern n, ?_, sd.put, grows⟩, s.heap.top, s.heap.top, rfl, ?_,
      .inl rfl⟩
    · intro m a hm
      obtain ⟨k, hk, ha⟩ := findVar?_eq_some.mp hm
      refine findVar?_eq_some.mpr ⟨k, (s.symbols.extends_intern n).find hk, ?_⟩
      -- the name that is assigned stood for no variable, so it is another one
      refine sd.get?_put.trans ?_
      rw [if_neg, ← Variables.addr?, ha]
      intro e
      rw [other hk e, hf] at hm
      cases hm
    · exact findVar?_eq_some.mpr ⟨_, s.symbols.find?_intern n, sd.get?_put.trans (if_pos rfl)⟩

/-- If names are sound, the reference points at the very variable. -/
lemma pushVar_spec (nm : s.Named) (n : String) :
    s.Grows (s.pushVar n).2 ∧
      ∃ q, (s.pushVar n).2.findVar? n = some q ∧ (s.pushVar n).2.heap = s.heap.push (.ref q) := by
  obtain ⟨rm, q, a, push, hf, rt⟩ := exists_pushVar (Remembers.refl nm.sound.byName) n
  obtain rfl : q = a := rt.resolve_right fun h => h.1 nm
  exact ⟨rm.grows nm, q, hf, push⟩

/-! ### Single cells -/

/-- The cell in `s` of a term that was laid since `s₀`, be its parts laid or not. -/
inductive CellOf (s₀ s : Store) (a : Addr) : Term → Cell → Prop where
  | int {v : Int32} : CellOf s₀ s a (.int v) (.int v)
  | sym {k : Symbol} {n : String} : s.symbols.name? k = some n → CellOf s₀ s a (.sym n) (.sym k)
  | nil : CellOf s₀ s a .nil .nil
  | fresh : (s₀.Named → s.vars.name? a = none) → CellOf s₀ s a .anonymous (.ref a)
  | var {n : String} {q r : Addr} : n ≠ "" → s.findVar? n = some r → s₀.RefersTo q r →
      CellOf s₀ s a (.var n) (.ref q)
  | record {n : String} {args : List Term} {q : Addr} : CellOf s₀ s a (.record n args) (.rcd q)
  | cons {car cdr : Term} {q : Addr} : CellOf s₀ s a (.cons car cdr) (.lst q)

/-- An address has the cell of a term. -/
def NodeAt (s₀ s : Store) (a : Addr) (t : Term) : Prop :=
  ∃ c, s.heap.read? a = some c ∧ CellOf s₀ s a t c

/-- The cell of a term stays one as long as it is not written. -/
lemma NodeAt.keep (nd : NodeAt s₀ s a t) (rm₀ : s₀.Remembers s) (rm : s.Remembers s')
    (same : ∀ {c}, s.heap.read? a = some c → s'.heap.read? a = some c) : NodeAt s₀ s' a t := by
  obtain ⟨c, hr, co⟩ := nd
  refine ⟨c, same hr, ?_⟩
  cases co with
  | int => exact .int
  | sym hk => exact .sym (rm.symbols.name hk)
  | nil => exact .nil
  | fresh unnamed =>
    refine .fresh fun nm => ?_
    rw [(rm.grows (rm₀.named nm)).name (Heap.isValid_of_read? hr), unnamed nm]
  | var ne hf rt => exact .var ne (rm.found hf) rt
  | record => exact .record
  | cons => exact .cons

/-- The terms of a row that have no parts have their cells next to each other. -/
def LeavesAt (s₀ s : Store) (p : Addr) (ts : List Term) : Prop :=
  ∀ i (hi : i < ts.length), ts[i].pending? (p + i) = none → NodeAt s₀ s (p + i) ts[i]

/-- An address has the signature of a queued term, if this is a record. -/
def HeadAt (s : Store) (p : Addr) : Pending → Prop
  | .record _ n args => ∃ f, s.heap.read? p = some (.sig f) ∧ s.symbols.name? f.name = some n ∧
      f.arity = args.length
  | .pair _ _ _ => True

/-- A queued term points at an address, where the signature is if it is a record. -/
structure PointsAt (s : Store) (p : Addr) (x : Pending) : Prop where
  cell : s.heap.read? x.cell = some (x.pointing p)
  head : s.HeadAt p x

/-- A queued term that points somewhere has its own cell. -/
lemma PointsAt.nodeAt (pa : s.PointsAt p x) : NodeAt s₀ s x.cell x.term := by
  refine ⟨_, pa.cell, ?_⟩
  cases x with
  | record cell n args => exact .record
  | pair cell car cdr => exact .cons

/-- A signature stays one as long as it is not written. -/
lemma HeadAt.keep (hd : s.HeadAt p x) (rm : s.Remembers s')
    (same : ∀ {c}, 0 < x.header → s.heap.read? p = some c → s'.heap.read? p = some c) :
    s'.HeadAt p x := by
  cases x with
  | record cell n args =>
    obtain ⟨f, hf, hn, ha⟩ := hd
    exact ⟨f, same Nat.one_pos hf, rm.symbols.name hn, ha⟩
  | pair cell car cdr => trivial

/-- The queued terms have placeholders for cells. -/
def Waiting (s : Store) (queue : List Pending) : Prop :=
  ∀ x ∈ queue, ∃ c, s.heap.read? x.cell = some c ∧ c.IsPlaceholder

/-! ### Rows of terms -/

/-- A term with parts is queued, and it is the last one then. -/
lemma place_queue (s : Store) (queue : List Pending) (t : Term) :
    (s.place queue t).2 = (t.pending? s.heap.top).toList ++ queue := by
  cases t with
  | var n =>
    rw [place]
    split <;> rfl
  | _ => rfl

/-- Placing a term adds its cell, which is a placeholder if it has parts. -/
lemma place_node (rm₀ : s₀.Remembers s) (queue : List Pending) (t : Term) :
    s.Remembers (s.place queue t).1 ∧ ∃ c, (s.place queue t).1.heap = s.heap.push c ∧
      CellOf s₀ (s.place queue t).1 s.heap.top t c ∧
      (t.pending? s.heap.top = none ∨ c.IsPlaceholder) := by
  have self := Remembers.refl rm₀.sound
  cases t with
  | int v => exact ⟨self.alloc _, _, rfl, .int, .inl rfl⟩
  | nil => exact ⟨self.alloc _, _, rfl, .nil, .inl rfl⟩
  | sym n =>
    refine ⟨(self.intern n).alloc _, _, rfl, .sym ?_, .inl rfl⟩
    exact Symbols.name?_of_find? (s.symbols.find?_intern n)
  | var n =>
    rw [place]
    split
    · rename_i e
      obtain rfl : n = "" := by simpa using e
      refine ⟨self.alloc _, _, rfl, .fresh fun nm => ?_, .inl rfl⟩
      exact (rm₀.named nm).name?_eq_none s.heap.not_isValid_top
    · rename_i ne
      obtain ⟨rm, q, a, push, hf, rt⟩ := exists_pushVar rm₀ n
      exact ⟨rm, .ref q, push, .var (by simpa using ne) hf rt, .inl rfl⟩
  | record n args => exact ⟨self.alloc _, _, rfl, .record, .inr (.inl rfl)⟩
  | cons car cdr => exact ⟨self.alloc _, _, rfl, .cons, .inr (.inr rfl)⟩

/-- A variable is one cell. -/
lemma size_pushVar (s : Store) (n : String) : (s.pushVar n).2.heap.size = s.heap.size + 1 := by
  rw [pushVar]
  split
  · exact s.heap.size_push _
  · exact s.heap.size_push _

/-- A term that is placed is one cell. -/
lemma size_place (s : Store) (queue : List Pending) (t : Term) :
    (s.place queue t).1.heap.size = s.heap.size + 1 := by
  cases t with
  | var n =>
    rw [place]
    split
    · exact s.heap.size_push _
    · exact s.size_pushVar n
  | _ => exact s.heap.size_push _

/-- Placing a term moves the next free address on by one. -/
lemma top_place (s : Store) (queue : List Pending) (t : Term) :
    (s.place queue t).1.heap.top = s.heap.top + 1 :=
  congrArg (· + 1) (s.size_place queue t)

/-- A row is as long as its terms are many. -/
lemma size_placeAll (s : Store) (queue : List Pending) (ts : List Term) :
    (s.placeAll queue ts).1.heap.size = s.heap.size + ts.length := by
  induction ts generalizing s queue with
  | nil => rfl
  | cons t ts ih =>
    rw [placeAll, ih, size_place, List.length_cons, Nat.add_assoc, Nat.add_comm 1]

/-- The terms of a row that have parts are queued. -/
lemma placeAll_queue (s : Store) (queue : List Pending) (ts : List Term) :
    (s.placeAll queue ts).2 = (Pending.row s.heap.top ts).reverse ++ queue := by
  induction ts generalizing s queue with
  | nil => rfl
  | cons t ts ih =>
    rw [placeAll]
    dsimp only
    rw [ih, place_queue, top_place, Pending.row, List.reverse_append, List.append_assoc]
    cases t.pending? s.heap.top <;> rfl

/-- From `s` to `s'` the terms `ts` got their cells in a row. -/
structure Places (s₀ s s' : Store) (ts : List Term) : Prop where
  remembers : s.Remembers s'
  same : ∀ {p c}, s.heap.read? p = some c → s'.heap.read? p = some c
  leaves : LeavesAt s₀ s' s.heap.top ts
  waiting : s'.Waiting (Pending.row s.heap.top ts)

/-- Terms that are placed lie in a row on top of the heap. -/
lemma placeAll_places (rm₀ : s₀.Remembers s) (queue : List Pending) (ts : List Term) :
    Places s₀ s (s.placeAll queue ts).1 ts := by
  induction ts generalizing s queue with
  | nil =>
    refine ⟨.refl rm₀.sound, id, ?_, ?_⟩
    · intro i hi
      exact absurd hi (Nat.not_lt_zero i)
    · intro x mem
      exact absurd mem List.not_mem_nil
  | cons t ts ih =>
    obtain ⟨rm, c, push, co, leaf_or⟩ := place_node rm₀ queue t
    obtain ⟨rm', same, leaves, waiting⟩ := ih (rm₀.trans rm) (s.place queue t).2
    have here : (s.place queue t).1.heap.read? s.heap.top = some c := by
      rw [push, Heap.read?_push_top]
    rw [top_place] at leaves waiting
    rw [placeAll]
    refine ⟨rm.trans rm', ?_, ?_, ?_⟩
    · intro p c hr
      apply same
      rw [push]
      exact Heap.read?_push_of_some hr
    · intro i hi leaf
      cases i with
      | zero => exact NodeAt.keep ⟨c, here, co⟩ (rm₀.trans rm) rm' same
      | succ i =>
        have eq : s.heap.top + (i + 1) = s.heap.top + 1 + i := by
          rw [Nat.add_assoc, Nat.add_comm 1]
        rw [eq] at leaf ⊢
        exact leaves i (Nat.lt_of_succ_lt_succ hi) leaf
    · intro x mem
      rcases List.mem_append.mp mem with mem | mem
      · have hx := Option.mem_toList.mp mem
        rw [(Pending.pending?_eq_some hx).1]
        refine ⟨c, same here, leaf_or.resolve_left ?_⟩
        rw [hx]
        exact Option.some_ne_none x
      · exact waiting x mem

/-! ### The queue -/

/-- From `s` to `s'` the signature of a queued term was added on top of the heap, if it is a
record. -/
inductive Opens (s : Store) : Pending → Store → Prop where
  | record {cell : Addr} {n : String} {args : List Term} {f : Signature} :
      f.name = (s.symbols.intern n).1 → f.arity = args.length →
      Opens s (.record cell n args) ((s.intern n).2.alloc (.sig f))
  | pair {cell : Addr} {car cdr : Term} : Opens s (.pair cell car cdr) s

/-- A queued term is to point at the top of the heap, where its signature is added first. -/
lemma addHeader_eq_ok (ho : s.addHeader x = .ok (target, s')) :
    target = s.heap.top ∧ s.Opens x s' := by
  cases x with
  | record cell n args =>
    simp only [addHeader] at ho
    split at ho
    · cases ho
    · rename_i f s₁ hi
      obtain ⟨rfl, hn, ha⟩ := internSignature_eq_ok hi
      cases ho
      exact ⟨rfl, .record hn ha⟩
  | pair cell car cdr =>
    cases ho
    exact ⟨rfl, .pair⟩

/-- A queued term is filled in by adding its signature, placing its parts and pointing it at the
signature or at the first part. -/
lemma fill_eq_ok (hf : (s.fill queue x).1 = .ok s') : ∃ s₁, s.Opens x s₁ ∧
    (s.fill queue x).2 = (s₁.placeAll queue x.term.args).2 ∧
    (s₁.placeAll queue x.term.args).1.write x.cell (x.pointing s.heap.top) = .ok s' := by
  rw [fill] at hf ⊢
  split at hf
  · cases hf
  · rename_i target s₁ ho
    obtain ⟨rfl, op⟩ := addHeader_eq_ok ho
    exact ⟨s₁, op, rfl, hf⟩

/-- The parts come behind the signature. -/
lemma Opens.top_eq (op : s.Opens x s') : s'.heap.top = x.first s.heap.top := by
  cases op with
  | record => exact congrArg (· + 1) (Heap.size_push ..)
  | pair => rfl

/-- The cells that are there stay as they are. -/
lemma Opens.same (op : s.Opens x s') (hr : s.heap.read? p = some c) :
    s'.heap.read? p = some c := by
  cases op with
  | record => exact Heap.read?_push_of_some hr
  | pair => exact hr

/-- The signature is remembered like all names. -/
lemma Opens.remembers (op : s.Opens x s') (sd : s.vars.byName.Sound) : s.Remembers s' := by
  cases op with
  | record => exact ((Remembers.refl sd).intern _).alloc _
  | pair => exact .refl sd

/-- The signature tells the name and the number of arguments. -/
lemma Opens.head (op : s.Opens x s') : s'.HeadAt s.heap.top x := by
  cases op with
  | @record _ n _ f hn ha =>
    refine ⟨f, Heap.read?_push_top _ _, ?_, ha⟩
    rw [hn]
    exact Symbols.name?_of_find? (s.symbols.find?_intern n)
  | pair => trivial

/-- When a queued term is filled in, those of its parts that have parts join the queue. -/
lemma fill_queue (hf : (s.fill queue x).1 = .ok s') :
    (s.fill queue x).2 = (Pending.row (x.first s.heap.top) x.term.args).reverse ++ queue ∧
      s'.heap.top = x.last s.heap.top := by
  obtain ⟨s₁, op, queued, hw⟩ := fill_eq_ok hf
  obtain ⟨_, rfl⟩ := write_eq_ok.mp hw
  rw [queued, placeAll_queue, op.top_eq]
  refine ⟨rfl, ?_⟩
  rw [Pending.last, ← op.top_eq, Heap.top, Heap.size_write, size_placeAll]
  exact Nat.add_right_comm ..

/-- From `s` to `s'` a queued term was filled in. -/
structure Fills (s₀ s s' : Store) (x : Pending) : Prop where
  remembers : s.Remembers s'
  same : ∀ {p c}, p ≠ x.cell → s.heap.read? p = some c → s'.heap.read? p = some c
  points : s'.PointsAt s.heap.top x
  leaves : LeavesAt s₀ s' (x.first s.heap.top) x.term.args
  waiting : s'.Waiting (Pending.row (x.first s.heap.top) x.term.args)

/-- A queued term with a placeholder gets its parts on top of the heap and points at them. -/
lemma fill_fills (rm₀ : s₀.Remembers s) (wt : ∃ c, s.heap.read? x.cell = some c ∧ c.IsPlaceholder)
    (hf : (s.fill queue x).1 = .ok s') : Fills s₀ s s' x := by
  obtain ⟨s₁, op, _, hw⟩ := fill_eq_ok hf
  obtain ⟨val, rfl⟩ := write_eq_ok.mp hw
  have rm := op.remembers rm₀.sound
  obtain ⟨rm', kept, leaves, waiting⟩ := placeAll_places (rm₀.trans rm) queue x.term.args
  rw [op.top_eq] at leaves waiting
  obtain ⟨c, hc, ph⟩ := wt
  have written := (Remembers.refl rm'.sound).write (kept (op.same hc)) ph (x.pointing s.heap.top)
  have other : ∀ {p d}, p ≠ x.cell →
      (s₁.placeAll queue x.term.args).1.heap.read? p = some d →
      ((s₁.placeAll queue x.term.args).1.heap.write x.cell (x.pointing s.heap.top)).read? p =
        some d := by
    intro p d ne hr
    rw [Heap.read?_write, if_neg fun h => ne h.1.symm, hr]
  -- the cell that is written is older than the parts
  have older : ∀ {p}, s.heap.top ≤ p → p ≠ x.cell :=
    fun le => Nat.ne_of_gt (Nat.lt_of_lt_of_le (Heap.lt_top_of_read? hc) le)
  have behind := x.le_first s.heap.top
  refine ⟨rm.trans (rm'.trans written), fun ne hr => other ne (kept (op.same hr)), ⟨?_, ?_⟩, ?_, ?_⟩
  · rw [Heap.read?_write, if_pos ⟨rfl, val⟩]
  · refine (op.head.keep rm' fun _ => kept).keep written fun _ => ?_
    exact other (older (Nat.le_refl _))
  · intro i hi leaf
    refine (leaves i hi leaf).keep (rm₀.trans (rm.trans rm')) written ?_
    exact other (older (Nat.le_trans behind (Nat.le_add_right _ _)))
  · intro y mem
    obtain ⟨d, hd, phd⟩ := waiting y mem
    exact ⟨d, other (older (Nat.le_trans behind (Pending.cell_of_mem_row mem).1)) hd, phd⟩

/-- Between two addresses lies what a queue leaves behind: for the first term in it what is in front
of its parts and the parts in a row, then what the rest and those of the parts that have parts
themselves leave behind. -/
inductive Spread (s₀ s : Store) : Addr → List Pending → Addr → Prop where
  | done {p : Addr} : Spread s₀ s p [] p
  | fill {p q : Addr} {x : Pending} {queue : List Pending} : s.PointsAt p x →
      LeavesAt s₀ s (x.first p) x.term.args →
      Spread s₀ s (x.last p) (queue ++ Pending.row (x.first p) x.term.args) q →
      Spread s₀ s p (x :: queue) q

/-- A queue that is drained leaves behind what it stands for, and of the other cells none is
written. -/
theorem drain_spread {front back : List Pending} (rm₀ : s₀.Remembers s)
    (as : Pending.Ascends (front ++ back.reverse) s.heap.top)
    (wt : s.Waiting (front ++ back.reverse)) (hd : s.drain front back = .ok s') :
    s.Remembers s' ∧ Spread s₀ s' s.heap.top (front ++ back.reverse) s'.heap.top ∧
      ∀ {p c}, (∀ x ∈ front ++ back.reverse, x.cell ≠ p) → s.heap.read? p = some c →
        s'.heap.read? p = some c := by
  -- along the queue: the terms in it have placeholders until their turn comes
  fun_induction drain s front back with
  | case1 s =>
    cases hd
    exact ⟨.refl rm₀.sound, .done, fun _ => id⟩
  | case2 s b bs ih =>
    rw [List.reverse_nil, List.append_nil] at ih
    exact ih rm₀ as wt hd
  | case3 s x front back filled e hf => cases hd
  | case4 s x front back filled s₁ hf ih =>
    have fl := fill_fills rm₀ (wt x (by simp)) hf
    obtain ⟨queued, top_eq⟩ := fill_queue hf
    have joined : front ++ ((Pending.row (x.first s.heap.top) x.term.args).reverse ++ back).reverse
        = front ++ back.reverse ++ Pending.row (x.first s.heap.top) x.term.args := by simp
    rw [queued] at ih hd
    rw [joined, top_eq] at ih
    have as' : Pending.Ascends (x :: (front ++ back.reverse)) s.heap.top := as
    have wt' : s₁.Waiting
        (front ++ back.reverse ++ Pending.row (x.first s.heap.top) x.term.args) := by
      intro y mem
      rcases List.mem_append.mp mem with old | new
      · obtain ⟨c, hc, ph⟩ := wt y (List.mem_cons_of_mem _ old)
        exact ⟨c, fl.same (Nat.ne_of_gt (as'.head_lt y mem)) hc, ph⟩
      · exact fl.waiting y new
    obtain ⟨rm, sp, same⟩ := ih (rm₀.trans fl.remembers) as'.fill wt' hd
    have first_le := x.le_first s.heap.top
    -- what was written when `x` was filled in is not written again
    refine ⟨fl.remembers.trans rm, .fill ⟨?_, ?_⟩ ?_ sp, ?_⟩
    · exact same (fun y mem => Nat.ne_of_gt (as'.head_lt y mem)) fl.points.cell
    · refine fl.points.head.keep rm fun header => ?_
      refine same (as'.tail.cell_ne (Nat.le_refl _) fun y mem => Nat.ne_of_gt ?_)
      exact Nat.lt_of_lt_of_le (Nat.lt_add_of_pos_right header) (Pending.cell_of_mem_row mem).1
    · intro i hi leaf
      have le : s.heap.top ≤ x.first s.heap.top + i := Nat.le_trans first_le (Nat.le_add_right _ _)
      have ne := as'.tail.cell_ne le (Pending.cell_ne_of_leaf hi leaf)
      exact (fl.leaves i hi leaf).keep (rm₀.trans fl.remembers) rm (same ne)
    · intro p c ne hr
      have lt : p < s.heap.top := Heap.lt_top_of_read? hr
      refine same ?_ (fl.same (ne x (by simp)).symm hr)
      intro y mem
      rcases List.mem_append.mp mem with mem | mem
      · exact ne y (List.mem_cons_of_mem _ mem)
      · have above := Nat.le_trans first_le (Pending.cell_of_mem_row mem).1
        exact Nat.ne_of_gt (Nat.lt_of_lt_of_le lt above)

/-- A term that is laid on a heap is spread behind its first cell, and no older cell is written. -/
theorem addTerm_spread {root : Addr} (sd : s.vars.byName.Sound)
    (ha : s.addTerm t = .ok (root, s')) :
    root = s.heap.top ∧ s.Remembers s' ∧ LeavesAt s s' root [t] ∧
      Spread s s' (root + 1) (Pending.row root [t]) s'.heap.top ∧
      ∀ {p c}, s.heap.read? p = some c → s'.heap.read? p = some c := by
  have rm₀ := Remembers.refl sd
  have pl : Places s s (s.place [] t).1 [t] := placeAll_places rm₀ [] [t]
  have queued : (s.place [] t).2 = Pending.row s.heap.top [t] := place_queue s [] t
  simp only [addTerm, queued] at ha
  split at ha
  · cases ha
  · rename_i s₁ hd
    cases ha
    have as : Pending.Ascends (Pending.row s.heap.top [t]) (s.place [] t).1.heap.top :=
      s.top_place [] t ▸ Pending.ascends_row s.heap.top [t]
    have queue := List.append_nil (Pending.row s.heap.top [t])
    obtain ⟨rm, sp, same⟩ := drain_spread (rm₀.trans pl.remembers) (queue.symm ▸ as)
      (queue.symm ▸ pl.waiting) hd
    rw [List.reverse_nil, queue] at sp same
    rw [top_place] at sp
    refine ⟨rfl, pl.remembers.trans rm, ?_, sp, ?_⟩
    · intro i hi leaf
      have ne := Pending.cell_ne_of_leaf hi leaf
      exact (pl.leaves i hi leaf).keep (rm₀.trans pl.remembers) rm (same ne)
    · intro p c hr
      refine same ?_ (pl.same hr)
      intro x mem
      have lt : p < s.heap.top := Heap.lt_top_of_read? hr
      exact Nat.ne_of_gt (Nat.lt_of_lt_of_le lt (Pending.cell_of_mem_row mem).1)

end Store
end TermHeap
