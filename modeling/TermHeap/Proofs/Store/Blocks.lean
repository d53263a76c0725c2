import Mathlib
import TermHeap.Proofs.Store.LevelOrder
import TermHeap.Proofs.Store.Report

/-!
# The blocks of a term on the heap

What is laid for a term is a cell and then one block after the other: a signature with the arguments
it tells, or the two parts of a list pair. `Blocks h p cs q` says that from `p` to `q` there are
nothing but the blocks of the cells `cs`, in this order. Here `cs` are all records and list pairs
that were laid, from the lowest address to the highest (`Spread.blocks`), so a later cell has a
later block and no two have the same (`Blocks.ordered`).
-/

namespace TermHeap

namespace Term

mutual

/-- The number of records in a term. -/
def records : Term → Nat
  | .record _ args => 1 + recordsAll args
  | .cons car cdr => car.records + cdr.records
  | .int _ | .sym _ | .var _ | .nil => 0

/-- The number of records in several terms. -/
def recordsAll : List Term → Nat
  | [] => 0
  | t :: ts => t.records + recordsAll ts

end

end Term

namespace Pending

/-- The nodes and records of a queued term are those of its parts and one of its own. -/
lemma size_term (x : Pending) : x.term.size = 1 + Term.sizeAll x.term.args ∧
    x.term.records = x.header + Term.recordsAll x.term.args := by
  cases x with
  | record cell n args => exact ⟨rfl, rfl⟩
  | pair cell car cdr =>
    simp only [term, Term.args, Term.size, Term.sizeAll, Term.records, Term.recordsAll, header]
    omega

/-- A term without parts has one node, and it is no record. -/
lemma size_of_pending?_eq_none {t : Term} {p : Addr} (leaf : t.pending? p = none) :
    t.size = 1 ∧ t.records = 0 := by
  cases t with
  | record n args => cases leaf
  | cons car cdr => cases leaf
  | _ => exact ⟨rfl, rfl⟩

/-- The sizes of a row that joins a queue, where terms without parts do not count. -/
lemma sum_row (p : Addr) (ts : List Term) :
    ts.length + ((row p ts).map fun x => x.term.size + x.term.records).sum =
      (row p ts).length + Term.sizeAll ts + Term.recordsAll ts := by
  induction ts generalizing p with
  | nil => rfl
  | cons t ts ih =>
    have rest := ih (p + 1)
    rw [row, List.map_append, List.sum_append, List.length_append, List.length_cons, Term.sizeAll,
      Term.recordsAll]
    cases hx : t.pending? p with
    | none =>
      obtain ⟨size, records⟩ := size_of_pending?_eq_none hx
      simp only [Option.toList_none, List.map_nil, List.sum_nil, List.length_nil]
      omega
    | some x =>
      rw [← (pending?_eq_some hx).2]
      simp only [Option.toList_some, List.map_cons, List.map_nil, List.sum_cons, List.sum_nil,
        List.length_cons, List.length_nil]
      omega

end Pending

namespace Heap

/-- What the record or list pair at an address points at. -/
def target? (h : Heap) (c : Addr) : Option Addr :=
  match h.read? c with
  | some (.rcd p) => some p
  | some (.lst p) => some p
  | _ => none

/-- The address of the first part of the record or list pair at an address, and the number of its
parts. -/
def parts? (h : Heap) (c : Addr) : Option (Addr × Nat) :=
  match h.read? c with
  | some (.rcd p) => (h.signature? p).map fun f => (p + 1, f.arity)
  | some (.lst p) => some (p, 2)
  | _ => none

/-- The cell at a position below the one at an address. -/
def cellAt? (h : Heap) (c : Addr) : List Nat → Option Addr
  | [] => some c
  | i :: path =>
    match h.parts? c with
    | some (first, n) => if i < n then h.cellAt? (first + i) path else none
    | none => none

/-- The addresses from `p` on, but not from `q` on, of records and list pairs. They ascend. -/
def compounds (h : Heap) (p q : Addr) : List Addr :=
  (List.range' p (q - p)).filter fun c => (h.target? c).isSome

/-- What the cell at `c` points at lies from `p` to `m`: the signature and the arguments of a
record, or the parts of a list pair. -/
inductive Block (h : Heap) (p c : Addr) : Addr → Prop where
  | record {f} : h.read? c = some (.rcd p) → h.read? p = some (.sig f) →
      (∀ i < f.arity, h.IsValue (p + 1 + i)) → Block h p c (p + 1 + f.arity)
  | pair : h.read? c = some (.lst p) → h.IsValue p → h.IsValue (p + 1) → Block h p c (p + 2)

/-- From `p` to `q` lie the blocks of the cells of a list, each of them behind its cell, in the
order of the list and with nothing between them. -/
inductive Blocks (h : Heap) : Addr → List Addr → Addr → Prop where
  | done {p} : Blocks h p [] p
  | next {p m q c cs} : c < p → h.Block p c m → Blocks h m cs q → Blocks h p (c :: cs) q

variable {h : Heap} {p q m c d r r' first : Addr} {n : Nat} {cs : List Addr}

/-! ### Blocks -/

/-- What is listed are the records and list pairs of the region. -/
lemma mem_compounds : c ∈ h.compounds p q ↔ p ≤ c ∧ c < q ∧ ∃ r, h.target? c = some r := by
  rw [compounds, List.mem_filter, List.mem_range'_1, Option.isSome_iff_exists]
  constructor
  · intro ⟨⟨le, lt⟩, ht⟩
    exact ⟨le, by grind, ht⟩
  · intro ⟨le, lt, ht⟩
    exact ⟨⟨le, by grind⟩, ht⟩

/-- The records and list pairs of two neighbouring regions follow each other. -/
lemma compounds_append (le : p ≤ m) (le' : m ≤ q) :
    h.compounds p q = h.compounds p m ++ h.compounds m q := by
  have split : List.range' p (q - p) = List.range' p (m - p) ++ List.range' m (q - m) := by
    rw [show q - p = (m - p) + (q - m) by grind, List.range'_append_1.symm]
    congr 2
    grind
  rw [compounds, split, List.filter_append]
  rfl

@[simp] lemma compounds_self (h : Heap) (p : Addr) : h.compounds p p = [] := by
  rw [compounds, Nat.sub_self]
  rfl

/-- A region of one cell lists that cell if it is a record or a list pair. -/
lemma compounds_succ (h : Heap) (p : Addr) :
    h.compounds p (p + 1) = if (h.target? p).isSome then [p] else [] := by
  rw [compounds, Nat.add_sub_cancel_left, List.range'_one, List.filter_singleton, cond_eq_ite]

/-- The records and list pairs of a region are listed in ascending order. -/
lemma compounds_ascend (h : Heap) (p q : Addr) : (h.compounds p q).Pairwise (· < ·) :=
  List.Pairwise.filter _ List.pairwise_lt_range'

/-- A position leads through one of the parts. -/
lemma cellAt?_cons (hp : h.parts? c = some (first, n)) {i : Nat} (hi : i < n)
    (path : List Nat) : h.cellAt? c (i :: path) = h.cellAt? (first + i) path := by
  simp only [cellAt?, hp, if_pos hi]

/-- What has parts points at something. -/
lemma exists_target?_of_parts? (hp : h.parts? c = some (first, n)) : ∃ r, h.target? c = some r := by
  rw [parts?] at hp
  rw [target?]
  split at hp
  · exact ⟨_, rfl⟩
  · exact ⟨_, rfl⟩
  · cases hp

/-- Where the parts are and where the target is. -/
lemma parts?_of_target? (ht : h.target? c = some r) (hp : h.parts? c = some (first, n)) :
    r ≤ first ∧ r < first + n := by
  rw [target?] at ht
  rw [parts?] at hp
  split at ht
  · rename_i hr
    cases ht
    rw [hr] at hp
    obtain ⟨f, _, e⟩ := Option.map_eq_some_iff.mp hp
    cases e
    grind
  · rename_i hr
    cases ht
    rw [hr] at hp
    cases hp
    grind
  · cases ht

/-- What points at a block has its parts there, at the end of the block. -/
lemma Block.parts (bk : h.Block p c m) : h.target? c = some p ∧
    ∃ first n, h.parts? c = some (first, n) ∧ p ≤ first ∧ p < first + n ∧ first + n = m := by
  cases bk with
  | record hr hf _ =>
    refine ⟨by simp only [target?, hr], p + 1, _, ?_, Nat.le_succ p, by grind, rfl⟩
    simp only [parts?, hr, signature?_eq_some.mpr hf, Option.map_some]
  | pair hr _ _ =>
    refine ⟨by simp only [target?, hr], p, 2, ?_, Nat.le_refl p, by grind, rfl⟩
    simp only [parts?, hr]

/-- Blocks end no earlier than they begin. -/
lemma Blocks.le (bl : h.Blocks p cs q) : p ≤ q := by
  induction bl with
  | done => exact Nat.le_refl _
  | next _ bk _ ih =>
    obtain ⟨_, first, n, _, _, lt, rfl⟩ := bk.parts
    exact Nat.le_trans (Nat.le_of_lt lt) ih

/-- A cell that has a block lies before its target, and the block lies among the others. -/
lemma Blocks.exists_parts (bl : h.Blocks p cs q) (mem : c ∈ cs) :
    ∃ r first n, h.target? c = some r ∧ h.parts? c = some (first, n) ∧ c < r ∧ p ≤ r ∧
      r ≤ first ∧ r < first + n ∧ first + n ≤ q := by
  induction bl with
  | done => cases mem
  | @next p m q d cs lt bk bl ih =>
    obtain ⟨ht, first, n, hp, le, lt', rfl⟩ := bk.parts
    rcases List.mem_cons.mp mem with rfl | mem
    · exact ⟨p, first, n, ht, hp, lt, Nat.le_refl p, le, lt', bl.le⟩
    · obtain ⟨r, first', n', ht', hp', lt'', le', in_block⟩ := ih mem
      exact ⟨r, first', n', ht', hp', lt'', Nat.le_trans (Nat.le_of_lt lt') le', in_block⟩

/-- The block of an earlier cell ends before that of a later one begins. -/
lemma Blocks.pairwise (bl : h.Blocks p cs q) :
    cs.Pairwise fun c d => ∀ first n r, h.parts? c = some (first, n) → h.target? d = some r →
      first + n ≤ r := by
  induction bl with
  | done => exact .nil
  | @next p m q c cs _ bk bl ih =>
    refine .cons ?_ ih
    intro d mem first n r hp ht
    obtain ⟨_, first', n', hp', _, _, rfl⟩ := bk.parts
    obtain ⟨rfl, rfl⟩ := Prod.mk.inj (Option.some.inj (hp'.symm.trans hp))
    obtain ⟨r', _, _, ht', _, _, le, _⟩ := bl.exists_parts mem
    obtain rfl := Option.some.inj (ht'.symm.trans ht)
    exact le

/-- If all records and list pairs of a region have their blocks in it in ascending order, a later
cell has a later block. -/
lemma Blocks.apart {root : Addr} (bl : h.Blocks p (h.compounds root q) q) (le : root ≤ c)
    (lt : c < d) (lt' : d < q) (hp : h.parts? c = some (first, n)) (ht : h.target? d = some r) :
    first + n ≤ r := by
  have mem_c : c ∈ h.compounds root q :=
    mem_compounds.mpr ⟨le, Nat.lt_trans lt lt', exists_target?_of_parts? hp⟩
  have mem_d : d ∈ h.compounds root q :=
    mem_compounds.mpr ⟨Nat.le_trans le (Nat.le_of_lt lt), lt', r, ht⟩
  obtain ⟨i, hi, rfl⟩ := List.mem_iff_getElem.mp mem_c
  obtain ⟨j, hj, rfl⟩ := List.mem_iff_getElem.mp mem_d
  -- the list ascends, so the lower address comes earlier in it
  have before : i < j := by
    by_contra ge
    rcases Nat.lt_or_eq_of_le (Nat.le_of_not_lt ge) with gt | rfl
    · exact Nat.lt_asymm lt (List.pairwise_iff_getElem.mp (h.compounds_ascend root q) j i hj hi gt)
    · exact Nat.lt_irrefl _ lt
  exact List.pairwise_iff_getElem.mp bl.pairwise i j hi hj before first n r hp ht

/-- What points at something is a cell of the heap. -/
lemma lt_top_of_target? (ht : h.target? c = some r) : c < h.top := by
  rw [target?] at ht
  split at ht
  · rename_i hr
    exact lt_top_of_read? hr
  · rename_i hr
    exact lt_top_of_read? hr
  · cases ht

/-- If all records and list pairs of a region have their blocks in it in ascending order, a later
cell has a later target. -/
lemma Blocks.ordered {root : Addr} (bl : h.Blocks p (h.compounds root q) q) (le : root ≤ c)
    (lt : c < d) (lt' : d < q) (hc : h.target? c = some r) (hd : h.target? d = some r') :
    r < r' := by
  have mem : c ∈ h.compounds root q := mem_compounds.mpr ⟨le, Nat.lt_trans lt lt', r, hc⟩
  obtain ⟨r₁, first, n, ht, hp, _, _, _, inside, _⟩ := bl.exists_parts mem
  obtain rfl := Option.some.inj (ht.symm.trans hc)
  exact Nat.lt_of_lt_of_le inside (bl.apart le lt lt' hp hd)

end Heap

namespace Store

variable {s₀ s s' : Store} {p q a c : Addr} {t u : Term} {ts : List Term} {x : Pending}
  {queue : List Pending}

/-! ### Spread terms lie in blocks -/

/-- There is a value where a term was spread. -/
lemma NodeAt.isValue (nd : NodeAt s₀ s a t) : s.heap.IsValue a := by
  obtain ⟨c, hr, co⟩ := nd
  refine ⟨c, hr, ?_⟩
  rintro f rfl
  cases co

/-- A term has a record or list pair as its cell if it has parts. -/
lemma NodeAt.target? (nd : NodeAt s₀ s a t) :
    (s.heap.target? a).isSome = (t.pending? a).isSome := by
  obtain ⟨c, hr, co⟩ := nd
  rw [Heap.target?, hr]
  cases co <;> rfl

/-- The cells of all that was queued point at parts somewhere. -/
lemma Spread.exists_points (sp : Spread s₀ s p queue q) : ∀ x ∈ queue, ∃ b, s.PointsAt b x := by
  induction sp with
  | done => nofun
  | fill pa _ _ ih =>
    intro y mem
    rcases List.mem_cons.mp mem with rfl | mem
    · exact ⟨_, pa⟩
    · exact ih y (List.mem_append_left _ mem)

/-- The cells of a row, those of terms with parts included. -/
lemma LeavesAt.nodes (lv : LeavesAt s₀ s p ts)
    (points : ∀ x ∈ Pending.row p ts, ∃ b, s.PointsAt b x) :
    ∀ i (hi : i < ts.length), NodeAt s₀ s (p + i) ts[i] := by
  intro i hi
  cases hx : ts[i].pending? (p + i) with
  | none => exact lv i hi hx
  | some x =>
    obtain ⟨b, pa⟩ := points x (Pending.mem_row hi hx)
    obtain ⟨hc, ht⟩ := Pending.pending?_eq_some hx
    rw [← hc, ← ht]
    exact pa.nodeAt

/-- Of a row, the records and list pairs are those cells that joined the queue. -/
lemma compounds_row (nodes : ∀ i (hi : i < ts.length), NodeAt s₀ s (p + i) ts[i]) :
    s.heap.compounds p (p + ts.length) = (Pending.row p ts).map Pending.cell := by
  induction ts generalizing p with
  | nil => exact Heap.compounds_self ..
  | cons t ts ih =>
    have step : p + (t :: ts).length = p + 1 + ts.length := by
      rw [List.length_cons, Nat.add_assoc, Nat.add_comm 1]
    have here : s.heap.compounds p (p + 1) = (t.pending? p).toList.map Pending.cell := by
      have node : NodeAt s₀ s p t := nodes 0 (Nat.succ_pos _)
      rw [Heap.compounds_succ, node.target?]
      cases hx : t.pending? p with
      | none => rfl
      | some x => exact congrArg (fun c => [c]) (Pending.pending?_eq_some hx).1.symm
    rw [step, Heap.compounds_append (Nat.le_succ p) (Nat.le_add_right _ _), here, ih, Pending.row,
      List.map_append]
    intro i hi
    rw [Nat.succ_eq_add_one, Nat.add_assoc, Nat.add_comm 1]
    exact nodes (i + 1) (Nat.succ_lt_succ hi)

/-- The parts of a queued term are where they were laid. -/
lemma PointsAt.parts? (pa : s.PointsAt p x) :
    s.heap.parts? x.cell = some (x.first p, x.term.args.length) := by
  cases x with
  | record cell n args =>
    obtain ⟨f, hf, _, ha⟩ := pa.head
    simp only [Heap.parts?, pa.cell, Pending.pointing, Heap.signature?_eq_some.mpr hf,
      Option.map_some, ha]
    rfl
  | pair cell car cdr =>
    simp only [Heap.parts?, pa.cell, Pending.pointing]
    rfl

/-- In front of the parts is a signature or nothing. -/
lemma PointsAt.signature (pa : s.PointsAt p x) (le : p ≤ a) (lt : a < x.first p) :
    ∃ f n, s.heap.read? a = some (.sig f) ∧ s.symbols.name? f.name = some n := by
  cases x with
  | record cell n args =>
    obtain ⟨f, hf, hn, _⟩ := pa.head
    obtain rfl : a = p := Nat.le_antisymm (Nat.le_of_lt_succ lt) le
    exact ⟨f, n, hf, hn⟩
  | pair cell car cdr => exact absurd le (Nat.not_le_of_lt lt)

/-- A queued term has its block, and in it the cells of its parts with parts. -/
lemma PointsAt.block (pa : s.PointsAt p x)
    (nodes : ∀ i (hi : i < x.term.args.length), NodeAt s₀ s (x.first p + i) x.term.args[i]) :
    s.heap.Block p x.cell (x.last p) ∧
      s.heap.compounds p (x.last p) = (Pending.row (x.first p) x.term.args).map Pending.cell := by
  have row := compounds_row nodes
  cases x with
  | record cell n args =>
    obtain ⟨f, hf, _, ha⟩ := pa.head
    have header : s.heap.compounds p (p + 1) = [] := by
      simp only [Heap.compounds_succ, Heap.target?, hf]
      rfl
    refine ⟨?_, ?_⟩
    · have block := Heap.Block.record pa.cell hf fun i hi => (nodes i (ha ▸ hi)).isValue
      rw [ha] at block
      exact block
    · refine (Heap.compounds_append (m := p + 1) (Nat.le_succ p) (Nat.le_add_right _ _)).trans ?_
      rw [header]
      exact row
  | pair cell car cdr =>
    exact ⟨.pair pa.cell (nodes 0 Nat.two_pos).isValue (nodes 1 Nat.one_lt_two).isValue, row⟩

/-- The blocks of what is queued are followed by those of what is in them. -/
theorem Spread.blocks (sp : Spread s₀ s p queue q) (as : Pending.Ascends queue p) :
    s.heap.Blocks p (queue.map Pending.cell ++ s.heap.compounds p q) q := by
  induction sp with
  | @done p =>
    rw [Heap.compounds_self]
    exact .done
  | @fill p q x queue pa lv sp ih =>
    have points := fun y mem => sp.exists_points y (List.mem_append_right _ mem)
    obtain ⟨bk, row⟩ := pa.block (lv.nodes points)
    have bl := ih as.fill
    have le : p ≤ x.last p := Nat.le_trans (Nat.le_add_right _ _) (Nat.le_add_right _ _)
    rw [List.map_append, List.append_assoc, ← row, ← Heap.compounds_append le bl.le] at bl
    exact .next (as.2 x (List.mem_cons_self ..)) bk bl

/-- A queue fills as many cells as its terms have nodes and records, without the cells that the
queue has already. -/
lemma Spread.size (sp : Spread s₀ s p queue q) :
    q + queue.length = p + (queue.map fun x => x.term.size + x.term.records).sum := by
  induction sp with
  | done => rfl
  | @fill p q x queue _ _ _ ih =>
    have row := Pending.sum_row (x.first p) x.term.args
    have whole := x.size_term
    rw [List.length_append, List.map_append, List.sum_append, Pending.last, Pending.first] at ih
    rw [Pending.first] at row
    rw [List.length_cons, List.map_cons, List.sum_cons, whole.1, whole.2]
    unfold Addr at *
    omega

/-- Every cell that is spread for a queue is a signature or that of a subterm of a queued term. -/
lemma Spread.exists_position (sp : Spread s₀ s p queue q) (le : p ≤ a) (lt : a < q) :
    (∃ f n, s.heap.read? a = some (.sig f) ∧ s.symbols.name? f.name = some n) ∨
    ∃ x ∈ queue, ∃ path u, x.term.at? path = some u ∧ s.heap.cellAt? x.cell path = some a ∧
      NodeAt s₀ s a u := by
  induction sp with
  | done => exact absurd le (Nat.not_le_of_lt lt)
  | @fill p q x queue pa lv sp ih =>
    have points := fun y mem => sp.exists_points y (List.mem_append_right _ mem)
    have down : ∀ {i : Nat} (hi : i < x.term.args.length) (path : List Nat),
        x.term.at? (i :: path) = x.term.args[i].at? path ∧
          s.heap.cellAt? x.cell (i :: path) = s.heap.cellAt? (x.first p + i) path :=
      fun hi path => ⟨Term.at?_cons hi path, Heap.cellAt?_cons pa.parts? hi path⟩
    rcases Nat.lt_or_ge a (x.last p) with lt' | ge
    · rcases Nat.lt_or_ge a (x.first p) with lt'' | ge'
      · exact .inl (pa.signature le lt'')
      · obtain ⟨i, rfl⟩ := Nat.exists_eq_add_of_le ge'
        have hi : i < x.term.args.length := Nat.lt_of_add_lt_add_left lt'
        obtain ⟨at_i, cell_i⟩ := down hi []
        exact .inr ⟨x, List.mem_cons_self .., [i], _, at_i, cell_i, lv.nodes points i hi⟩
    · rcases ih ge lt with sig | ⟨y, mem, path, u, hu, ha, nd⟩
      · exact .inl sig
      · right
        rcases List.mem_append.mp mem with mem | mem
        · exact ⟨y, List.mem_cons_of_mem _ mem, path, u, hu, ha, nd⟩
        · -- `y` is a part of `x`, so the path to it is one longer
          obtain ⟨i, hi, hy⟩ := Pending.exists_of_mem_row mem
          obtain ⟨hc, ht⟩ := Pending.pending?_eq_some hy
          obtain ⟨at_i, cell_i⟩ := down hi path
          refine ⟨x, List.mem_cons_self .., i :: path, u, ?_, ?_, nd⟩
          · rw [at_i, ← ht, hu]
          · rw [cell_i, ← hc, ha]

/-! ### Whole terms -/

/-- A reference is the cell of a variable. -/
lemma NodeAt.of_ref (nd : NodeAt s₀ s a t) (hr : s.heap.read? a = some (.ref q)) :
    ∃ n, t = .var n ∧ (n = "" → q = a) ∧
      (n ≠ "" → ∃ r, s.findVar? n = some r ∧ s₀.RefersTo q r) := by
  obtain ⟨c, hr', co⟩ := nd
  obtain rfl := Option.some.inj (hr.symm.trans hr')
  cases co with
  | fresh => exact ⟨"", rfl, fun _ => rfl, fun ne => absurd rfl ne⟩
  | @var n _ r ne hf rt => exact ⟨n, rfl, fun e => absurd e ne, fun _ => ⟨r, hf, rt⟩⟩

/-- The cell of a term can be shown. -/
lemma NodeAt.exists_rawText (nd : NodeAt s₀ s a t) :
    ∃ c text, s.heap.read? a = some c ∧ s.rawText c = .ok text := by
  obtain ⟨c, hr, co⟩ := nd
  cases co with
  | @sym k n hk =>
    refine ⟨_, "SYM:" ++ n, hr, ?_⟩
    rw [rawText, name_of_name? hk]
    rfl
  | _ => exact ⟨_, _, hr, rfl⟩

/-- A signature with a known symbol can be shown. -/
lemma exists_rawText_of_sig {f : Signature} {n : String} (hr : s.heap.read? a = some (.sig f))
    (hn : s.symbols.name? f.name = some n) :
    ∃ c text, s.heap.read? a = some c ∧ s.rawText c = .ok text := by
  refine ⟨_, "SIG:" ++ (n ++ "/" ++ toString f.arity), hr, ?_⟩
  rw [rawText, signatureText_of_name? hn]
  rfl

/-- Where a term was laid, whatever the heap was, each cell is a signature or that of a subterm. -/
lemma addTerm_position {root : Addr} (sd : s.vars.byName.Sound)
    (ha : s.addTerm t = .ok (root, s')) (le : root ≤ a) (lt : a < s'.heap.top) :
    (∃ f n, s'.heap.read? a = some (.sig f) ∧ s'.symbols.name? f.name = some n) ∨
    ∃ path u, t.at? path = some u ∧ s'.heap.cellAt? root path = some a ∧ NodeAt s s' a u := by
  obtain ⟨_, _, lv, sp, _⟩ := addTerm_spread sd ha
  rcases Nat.lt_or_eq_of_le le with below | rfl
  · rcases sp.exists_position below lt with sig | ⟨x, mem, path, u, hu, ha, nd⟩
    · exact .inl sig
    · obtain ⟨i, hi, hx⟩ := Pending.exists_of_mem_row mem
      obtain rfl : i = 0 := Nat.lt_one_iff.mp hi
      obtain ⟨hc, ht⟩ := Pending.pending?_eq_some hx
      rw [hc] at ha
      rw [ht] at hu
      exact .inr ⟨path, u, hu, ha, nd⟩
  · exact .inr ⟨[], t, rfl, rfl, lv.nodes sp.exists_points 0 Nat.one_pos⟩

/-- Behind the first cell of a term that was laid there are just the blocks of its records and list
pairs. -/
lemma addTerm_blocks {root : Addr} (sd : s.vars.byName.Sound)
    (ha : s.addTerm t = .ok (root, s')) : s'.heap.IsValue root ∧
      s'.heap.Blocks (root + 1) (s'.heap.compounds root s'.heap.top) s'.heap.top := by
  obtain ⟨_, _, lv, sp, _⟩ := addTerm_spread sd ha
  have nodes := lv.nodes sp.exists_points
  have bl := sp.blocks (Pending.ascends_row root [t])
  have root_first : s'.heap.compounds root s'.heap.top =
      (Pending.row root [t]).map Pending.cell ++ s'.heap.compounds (root + 1) s'.heap.top :=
    (Heap.compounds_append (m := root + 1) (Nat.le_succ root) bl.le).trans
      (congrArg (· ++ _) (compounds_row nodes))
  exact ⟨(nodes 0 Nat.one_pos).isValue, root_first ▸ bl⟩

/-- A term gets a cell for each of its nodes and one more for each of its records. -/
lemma size_addTerm {root : Addr} (sd : s.vars.byName.Sound)
    (ha : s.addTerm t = .ok (root, s')) :
    s'.heap.size = s.heap.size + t.size + t.records := by
  obtain ⟨rfl, _, _, sp, _⟩ := addTerm_spread sd ha
  have size := sp.size
  have row := Pending.sum_row s.heap.top [t]
  simp only [Heap.top, List.length_singleton, Term.sizeAll, Term.recordsAll] at size row
  unfold Addr at *
  omega

/-- Whatever the heap was, a term that was laid can be reported. -/
lemma addTermLogged_of_addTerm {root : Addr} (sd : s.vars.byName.Sound)
    (ha : s.addTerm t = .ok (root, s')) (v : Int) (log : Log) :
    ∃ log', s.addTermLogged v t log = .ok (root, log', s') := by
  refine addTermLogged_of_texts ha ?_ v log
  intro a le lt
  rcases addTerm_position sd ha le lt with ⟨f, n, hr, hn⟩ | ⟨_, u, _, _, nd⟩
  · exact exists_rawText_of_sig hr hn
  · exact nd.exists_rawText

/-- **The layout of a term is exact.** Whatever cells a store has and whatever addresses have names
in it, a term that fits is laid behind the cells that are there, which stay as they are. It gets a
cell for each node and one more for each record: first its own cell, then the blocks of all records
and list pairs, each behind the cell that points at it and in the order of these cells. A reference
among the new cells is the cell of a variable. It points at itself if the variable is anonymous, and
otherwise at the address that has the name, as far as a word has room for that. -/
theorem addTerm_layout (ed : s.Edited) (ft : t.fits = true) (v : Int) (log : Log) :
    ∃ log' s', s.addTermLogged v t log = .ok (s.heap.top, log', s') ∧
      (∀ {p c}, s.heap.read? p = some c → s'.heap.read? p = some c) ∧
      s'.heap.size = s.heap.size + t.size + t.records ∧
      s'.heap.IsValue s.heap.top ∧
      s'.heap.Blocks (s.heap.top + 1) (s'.heap.compounds s.heap.top s'.heap.top) s'.heap.top ∧
      (∀ {c d p q}, s.heap.top ≤ c → c < d → s'.heap.target? c = some p →
        s'.heap.target? d = some q → p < q) ∧
      ∀ {a q}, s.heap.top ≤ a → s'.heap.read? a = some (.ref q) →
        ∃ path n, t.at? path = some (.var n) ∧ s'.heap.cellAt? s.heap.top path = some a ∧
          (n = "" → q = a) ∧
          (n ≠ "" → ∃ r, s'.findVar? n = some r ∧
            (q = r ∨ payloadSpan ≤ r ∧ q = r % payloadSpan)) := by
  have sd := ed.sound_byName
  obtain ⟨root, s', ha⟩ := exists_addTerm s ft
  obtain ⟨rfl, _, _, _, same⟩ := addTerm_spread sd ha
  obtain ⟨vl, bl⟩ := addTerm_blocks sd ha
  obtain ⟨log', logged⟩ := addTermLogged_of_addTerm sd ha v log
  refine ⟨log', s', logged, same, size_addTerm sd ha, vl, bl, ?_, ?_⟩
  · intro c d p q le lt hc hd
    exact bl.ordered le lt (Heap.lt_top_of_target? hd) hc hd
  · intro a q le hr
    have lt : a < s'.heap.top := Heap.lt_top_of_read? hr
    rcases addTerm_position sd ha le lt with ⟨f, n, hr', _⟩ | ⟨path, u, hu, hc, nd⟩
    · rw [hr] at hr'
      cases hr'
    · obtain ⟨n, rfl, anonymous, named⟩ := nd.of_ref hr
      refine ⟨path, n, hu, hc, anonymous, fun ne => ?_⟩
      obtain ⟨r, hf, rt⟩ := named ne
      exact ⟨r, hf, rt.imp_right And.right⟩

/-- A store with a record that points nowhere. The name `X` is that of an address without a cell,
which the term below comes to lie at. -/
def danglingName : Store := ((Store.empty 8).assignName 9 "X").alloc (.rcd 77)

/-- The term `f([X | _], g(), 1)`. -/
def threeArguments : Term := .record "f" [.cons (.var "X") .anonymous, .record "g" [], .int 1]

/-- The term is laid behind the broken record, which stays as it is, and its blocks fill the rest of
the heap. -/
theorem addTerm_layout_danglingName :
    ∃ log s', danglingName.addTermLogged 2 threeArguments .empty = .ok (2, log, s') ∧
      s'.heap.read? 1 = some (.rcd 77) ∧ s'.heap.size = 9 ∧
      s'.heap.Blocks 3 (s'.heap.compounds 2 10) 10 := by
  have edited : danglingName.Edited := .heap _ (.assignName 9 "X" (.fresh 8))
  obtain ⟨log, s', logged, same, size, _, bl, _⟩ :=
    addTerm_layout (t := threeArguments) edited (by decide) 2 .empty
  have nine : s'.heap.size = 9 := size
  have top : s'.heap.top = 10 := congrArg (· + 1) nine
  rw [top] at bl
  exact ⟨log, s', logged, same rfl, nine, bl⟩

/-- A store without cells, in which the name `X` is that of an address with 62 bits. -/
def wideName : Store := (Store.empty 4).assignName payloadSpan "X"

/-- A word has no room for such an address, so a reference to `X` points elsewhere. -/
theorem addTerm_layout_wideName :
    wideName.Edited ∧ ∃ log s' q r, wideName.addTermLogged 0 (.var "X") .empty = .ok (1, log, s') ∧
      s'.heap.read? 1 = some (.ref q) ∧ s'.findVar? "X" = some r ∧ q ≠ 1 ∧ q ≠ r := by
  have values : (wideName.addTermLogged 0 (.var "X") .empty).map (fun added =>
      (added.1, added.2.2.heap.read? 1, added.2.2.findVar? "X")) =
      .ok (1, some (.ref 0), some payloadSpan) := by cbv
  refine ⟨.assignName _ _ (.fresh 4), ?_⟩
  cases ha : wideName.addTermLogged 0 (.var "X") .empty with
  | error e =>
    rw [ha] at values
    cases values
  | ok added =>
    obtain ⟨root, log, s'⟩ := added
    rw [ha] at values
    obtain ⟨rfl, rest⟩ := Prod.mk.inj (Except.ok.inj values)
    obtain ⟨cell, found⟩ := Prod.mk.inj rest
    exact ⟨log, s', 0, payloadSpan, rfl, cell, found, by decide, by decide⟩

end Store
end TermHeap
