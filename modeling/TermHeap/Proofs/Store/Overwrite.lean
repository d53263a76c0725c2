import TermHeap.Proofs.Store.LevelOrder

/-!
# Terms are laid beside old cells

What is laid for a term depends on the size of the heap, on the symbols and on the names, but on no
cell that was there before, and of these cells none is written. So it makes no difference whether
an old cell is overwritten before terms are laid or afterwards (`addTerms_overwrite`), and the old
cells stay as they are (`read?_addTerms`).
-/

namespace TermHeap.Store

/-- The store with the cell at an address overwritten. -/
def overwrite (s : Store) (x : Addr) (c : Cell) : Store := { s with heap := s.heap.write x c }

/-- Lay several terms one after the other and return the addresses of their first cells. -/
def addTerms (s : Store) : List Term → Except Fault (List Addr × Store)
  | [] => .ok ([], s)
  | t :: ts =>
    match s.addTerm t with
    | .error e => .error e
    | .ok (root, s) =>
      match s.addTerms ts with
      | .error e => .error e
      | .ok (roots, s) => .ok (root :: roots, s)

variable {s s' : Store} {x : Addr} {c d : Cell} {n : String} {t : Term} {ts : List Term}
  {queue queue' front back : List Pending} {p : Pending}

/-! ### Single cells -/

/-- Overwriting adds no cell. -/
lemma size_overwrite : (s.overwrite x c).heap.size = s.heap.size := s.heap.size_write x c

/-- The next cell comes to the same address. -/
lemma top_overwrite : (s.overwrite x c).heap.top = s.heap.top := congrArg (· + 1) size_overwrite

/-- There are cells at the same addresses. -/
lemma isValid_overwrite (q : Addr) : (s.overwrite x c).heap.isValid q = s.heap.isValid q := by
  rw [Bool.eq_iff_iff, Heap.isValid_iff, Heap.isValid_iff, size_overwrite]

/-- A reference to an address is written the same way. -/
lemma refTo_overwrite (q : Addr) : (s.overwrite x c).heap.refTo q = s.heap.refTo q := by
  rw [Heap.refTo, Heap.refTo, isValid_overwrite]

/-- A cell is added beside an old one. -/
lemma alloc_overwrite (val : s.heap.isValid x = true) :
    (s.overwrite x c).alloc d = (s.alloc d).overwrite x c :=
  congrArg (fun h => { s with heap := h }) (s.heap.push_write val c d)

/-- A variable without a name is added beside an old cell. -/
lemma pushFresh_overwrite (val : s.heap.isValid x = true) :
    (s.overwrite x c).pushFresh = (s.pushFresh.1, s.pushFresh.2.overwrite x c) := by
  simp only [pushFresh, top_overwrite, alloc_overwrite val]

/-- A variable with a name is added beside an old cell. -/
lemma pushVar_overwrite (val : s.heap.isValid x = true) :
    (s.overwrite x c).pushVar n = ((s.pushVar n).1, (s.pushVar n).2.overwrite x c) := by
  have found : (s.overwrite x c).findVar? n = s.findVar? n := rfl
  rw [pushVar, pushVar, found]
  cases s.findVar? n with
  | some q => simp only [push, top_overwrite, refTo_overwrite, alloc_overwrite val]
  | none =>
    simp only [pushFresh_overwrite val]
    rfl

/-! ### Terms -/

/-- An address of a cell stays one while cells are added. -/
lemma isValid_of_size_le (val : s.heap.isValid x = true) (le : s.heap.size ≤ s'.heap.size) :
    s'.heap.isValid x = true := by
  obtain ⟨pos, below⟩ := Heap.isValid_iff.mp val
  exact Heap.isValid_iff.mpr ⟨pos, Nat.le_trans below le⟩

/-- The cell of a term is added beside an old one. -/
lemma place_overwrite (val : s.heap.isValid x = true) (queue : List Pending) (t : Term) :
    (s.overwrite x c).place queue t =
      ((s.place queue t).1.overwrite x c, (s.place queue t).2) := by
  cases t with
  | sym n =>
    have valid : (s.intern n).2.heap.isValid x = true := val
    exact congrArg (·, queue) (alloc_overwrite valid)
  | var n =>
    rw [place, place]
    split
    · rw [pushFresh_overwrite val]
    · rw [pushVar_overwrite val]
  | record n args => simp only [place, top_overwrite, alloc_overwrite val]
  | cons car cdr => simp only [place, top_overwrite, alloc_overwrite val]
  | _ => simp only [place, alloc_overwrite val]

/-- The cells of a row of terms are added beside an old one. -/
lemma placeAll_overwrite (val : s.heap.isValid x = true) (queue : List Pending) (ts : List Term) :
    (s.overwrite x c).placeAll queue ts =
      ((s.placeAll queue ts).1.overwrite x c, (s.placeAll queue ts).2) := by
  induction ts generalizing s queue with
  | nil => rfl
  | cons t ts ih =>
    have val' : (s.place queue t).1.heap.isValid x = true :=
      isValid_of_size_le val (s.size_place queue t ▸ Nat.le_succ _)
    rw [placeAll, place_overwrite val]
    exact ih val' _

/-! ### The queue -/

/-- Filling in a queued term adds cells, at which its parts are queued. -/
lemma fill_adds (hf : (s.fill queue p).1 = .ok s') :
    s.heap.size ≤ s'.heap.size ∧ ∀ y ∈ (s.fill queue p).2, y ∈ queue ∨ s.heap.size < y.cell := by
  obtain ⟨queued, top_eq⟩ := fill_queue hf
  have le : s.heap.top ≤ s'.heap.top := top_eq ▸ p.le_last s.heap.top
  refine ⟨Nat.le_of_succ_le_succ le, ?_⟩
  intro y mem
  rw [queued] at mem
  rcases List.mem_append.mp mem with mem | mem
  · have above := (Pending.cell_of_mem_row (List.mem_reverse.mp mem)).1
    exact .inr (Nat.le_trans (p.le_first s.heap.top) above)
  · exact .inl mem

/-- A signature does not depend on cells. -/
lemma internSignature_overwrite (n : String) (arity : Nat) :
    (s.overwrite x c).internSignature n arity =
      (s.internSignature n arity).map fun made => (made.1, made.2.overwrite x c) := by
  have intern : (s.overwrite x c).intern n = ((s.intern n).1, (s.intern n).2.overwrite x c) := rfl
  simp only [internSignature, intern]
  cases Signature.of? (s.intern n).1 arity with
  | none => rfl
  | some f => rfl

/-- The signature of a queued term is added beside an old cell. -/
lemma addHeader_overwrite (val : s.heap.isValid x = true) (p : Pending) :
    (s.overwrite x c).addHeader p =
      (s.addHeader p).map fun added => (added.1, added.2.overwrite x c) := by
  cases p with
  | record cell n args =>
    rw [addHeader, addHeader, internSignature_overwrite]
    cases hi : s.internSignature n args.length with
    | error e => rfl
    | ok made =>
      obtain ⟨f, s₁⟩ := made
      obtain ⟨rfl, _⟩ := internSignature_eq_ok hi
      have valid : (s.intern n).2.heap.isValid x = true := val
      simp only [Except.map, push, top_overwrite, alloc_overwrite valid]
  | pair cell car cdr => simp only [addHeader, Except.map, top_overwrite]

/-- Writing two cells in either order is the same. -/
lemma write_overwrite {q : Addr} (ne : q ≠ x) :
    (s.overwrite x c).write q d = (s.write q d).map (·.overwrite x c) := by
  rw [write, write, isValid_overwrite]
  split
  · exact congrArg (fun h => Except.ok { s with heap := h }) (Heap.write_comm _ ne.symm _ _)
  · rfl

/-- A queued term is filled in beside an old cell. -/
lemma fill_overwrite (val : s.heap.isValid x = true) (ne : p.cell ≠ x) (queue : List Pending) :
    (s.overwrite x c).fill queue p =
      ((s.fill queue p).1.map (·.overwrite x c), (s.fill queue p).2) := by
  rw [fill, fill, addHeader_overwrite val]
  cases ho : s.addHeader p with
  | error e => rfl
  | ok added =>
    obtain ⟨target, s₁⟩ := added
    obtain ⟨_, op⟩ := addHeader_eq_ok ho
    have le : s.heap.top ≤ s₁.heap.top := op.top_eq ▸ p.le_first s.heap.top
    have val₁ : s₁.heap.isValid x = true := isValid_of_size_le val (Nat.le_of_succ_le_succ le)
    simp only [Except.map, placeAll_overwrite val₁, write_overwrite ne]

/-- Working off a queue removes no cell. -/
lemma size_le_drain (hd : s.drain front back = .ok s') : s.heap.size ≤ s'.heap.size := by
  fun_induction drain s front back with
  | case1 s =>
    cases hd
    exact Nat.le_refl _
  | case2 s b bs ih => exact ih hd
  | case3 s p front back filled e hf => cases hd
  | case4 s p front back filled s₁ hf ih => exact Nat.le_trans (fill_adds hf).1 (ih hd)

/-- A queue is worked off beside an old cell that is none of its own. -/
lemma drain_overwrite (val : s.heap.isValid x = true) (ne : ∀ p ∈ front ++ back, p.cell ≠ x) :
    (s.overwrite x c).drain front back = (s.drain front back).map (·.overwrite x c) := by
  fun_induction drain s front back with
  | case1 s => rw [drain]; rfl
  | case2 s b bs ih =>
    rw [drain]
    apply ih val
    intro p mem
    exact ne p (by simpa [or_comm] using mem)
  | case3 s p front back filled e hf =>
    have hf : (s.fill back p).1 = .error e := hf
    rw [drain, fill_overwrite val (ne p (by simp)), hf]
    rfl
  | case4 s p front back filled s₁ hf ih =>
    have hf : (s.fill back p).1 = .ok s₁ := hf
    rw [drain, fill_overwrite val (ne p (by simp)), hf]
    obtain ⟨le, new⟩ := fill_adds hf
    apply ih (isValid_of_size_le val le)
    intro y mem
    rcases List.mem_append.mp mem with mem | mem
    · exact ne y (by simp [mem])
    · rcases new y mem with mem | lt
      · exact ne y (by simp [mem])
      · exact Nat.ne_of_gt (Nat.lt_of_le_of_lt (Heap.isValid_iff.mp val).2 lt)

/-! ### Whole terms -/

/-- Laying a term removes no cell. -/
lemma size_le_addTerm {root : Addr} (ha : s.addTerm t = .ok (root, s')) :
    s.heap.size ≤ s'.heap.size := by
  simp only [addTerm] at ha
  split at ha
  · cases ha
  · rename_i hd
    cases ha
    have le := size_le_drain hd
    rw [size_place] at le
    exact Nat.le_of_succ_le le

/-- A term is laid beside an old cell. -/
lemma addTerm_overwrite (val : s.heap.isValid x = true) (t : Term) :
    (s.overwrite x c).addTerm t =
      (s.addTerm t).map fun added => (added.1, added.2.overwrite x c) := by
  have val' : (s.place [] t).1.heap.isValid x = true :=
    isValid_of_size_le val (s.size_place [] t ▸ Nat.le_succ _)
  have ne : ∀ p ∈ (s.place [] t).2 ++ [], p.cell ≠ x := by
    intro p mem
    rw [List.append_nil] at mem
    have queued : (s.place [] t).2 = Pending.row s.heap.top [t] := place_queue s [] t
    rw [queued] at mem
    have lt : s.heap.size < p.cell := (Pending.cell_of_mem_row mem).1
    exact Nat.ne_of_gt (Nat.lt_of_le_of_lt (Heap.isValid_iff.mp val).2 lt)
  simp only [addTerm, top_overwrite, place_overwrite val, drain_overwrite val' ne]
  cases (s.place [] t).1.drain (s.place [] t).2 [] with
  | error e => rfl
  | ok s' => rfl

/-- Laying several terms removes no cell. -/
lemma size_le_addTerms {roots : List Addr} (ha : s.addTerms ts = .ok (roots, s')) :
    s.heap.size ≤ s'.heap.size := by
  induction ts generalizing s roots with
  | nil =>
    cases ha
    exact Nat.le_refl _
  | cons t ts ih =>
    rw [addTerms] at ha
    split at ha
    · cases ha
    · rename_i root s₁ ht
      split at ha
      · cases ha
      · rename_i hts
        cases ha
        exact Nat.le_trans (size_le_addTerm ht) (ih hts)

/-- Laying one more term is laying it last. -/
lemma addTerms_snoc {roots : List Addr} {root : Addr} {s₁ : Store}
    (ha : s.addTerms ts = .ok (roots, s₁)) (ht : s₁.addTerm t = .ok (root, s')) :
    s.addTerms (ts ++ [t]) = .ok (roots ++ [root], s') := by
  induction ts generalizing s roots with
  | nil =>
    cases ha
    simp only [List.nil_append, addTerms, ht]
  | cons u ts ih =>
    rw [addTerms] at ha
    split at ha
    · cases ha
    · rename_i root₀ s₀ hu
      split at ha
      · cases ha
      · rename_i hts
        cases ha
        rw [List.cons_append, addTerms, hu]
        simp only [ih hts, List.cons_append]

/-- Overwriting an old cell before terms are laid or afterwards is the same. -/
theorem addTerms_overwrite (val : s.heap.isValid x = true) (ts : List Term) :
    (s.overwrite x c).addTerms ts =
      (s.addTerms ts).map fun added => (added.1, added.2.overwrite x c) := by
  induction ts generalizing s with
  | nil => rfl
  | cons t ts ih =>
    rw [addTerms, addTerms, addTerm_overwrite val]
    cases ht : s.addTerm t with
    | error e => rfl
    | ok added =>
      simp only [Except.map, ih (isValid_of_size_le val (size_le_addTerm ht))]
      cases added.2.addTerms ts with
      | error e => rfl
      | ok rest => rfl

/-- Old cells stay as they are when terms are laid. -/
theorem read?_addTerms {roots : List Addr} (ha : s.addTerms ts = .ok (roots, s'))
    (hr : s.heap.read? x = some c) : s'.heap.read? x = some c := by
  -- writing what is there already makes no difference before, so it makes none afterwards
  have val := Heap.isValid_of_read? hr
  have same : s.overwrite x c = s := congrArg (fun h => { s with heap := h }) (Heap.write_self hr)
  have twice := addTerms_overwrite (c := c) val ts
  rw [same, ha] at twice
  have heap : s'.heap = s'.heap.write x c :=
    congrArg (fun added => added.2.heap) (Except.ok.inj twice)
  rw [heap, Heap.read?_write, if_pos ⟨rfl, isValid_of_size_le val (size_le_addTerms ha)⟩]

end TermHeap.Store
