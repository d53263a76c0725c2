import TermHeap.Proofs.Store.LevelOrder

/-!
# The layout of a term

`Lays s p t` says that the term `t` is laid out at the address `p`: each of its nodes has a cell
with the cells of its parts behind it, and a named variable refers to the variable that the store
knows by this name. If names are sound, this is what the levels of a term amount to: from the last
level to the first, a term is laid out when its parts are (`Spread.lays`, `addTerm_lays`). Laying
fails only for a record with too many arguments (`exists_addTerm`).
-/

namespace TermHeap

/-! ### Terms that can be laid -/

namespace Term

mutual

/-- Whether no record of a term has too many arguments. -/
def fits : Term → Bool
  | .record _ args => args.length ≤ maxArity && fitsAll args
  | .cons car cdr => car.fits && cdr.fits
  | .int _ | .sym _ | .var _ | .nil => true

/-- Whether no record of several terms has too many arguments. -/
def fitsAll : List Term → Bool
  | [] => true
  | t :: ts => t.fits && fitsAll ts

end

/-- Several terms fit if each of them does. -/
lemma fitsAll_iff {ts : List Term} : fitsAll ts = true ↔ ∀ t ∈ ts, t.fits = true := by
  induction ts with
  | nil => simp [fitsAll]
  | cons t ts ih => simp [fitsAll, ih]

/-- The parts of a term that fits do so, too. -/
lemma fits_of_mem_args {t u : Term} (ft : t.fits = true) (mem : u ∈ t.args) : u.fits = true := by
  cases t with
  | record n args =>
    rw [fits, Bool.and_eq_true] at ft
    exact fitsAll_iff.mp ft.2 u mem
  | cons car cdr =>
    rw [fits, Bool.and_eq_true] at ft
    rcases List.mem_cons.mp mem with rfl | mem
    · exact ft.1
    · obtain rfl := List.mem_singleton.mp mem
      exact ft.2
  | _ => cases mem

/-- A property that passes from a term to its parts. -/
def Hereditary (P : Term → Prop) : Prop := ∀ t, P t → ∀ u ∈ t.args, P u

end Term

namespace Store

/-- A term without parts has its cell at an address. -/
inductive LeafAt (s : Store) (p : Addr) : Term → Prop where
  | int {v} : s.heap.read? p = some (.int v) → LeafAt s p (.int v)
  | nil : s.heap.read? p = some .nil → LeafAt s p .nil
  | sym {k n} : s.heap.read? p = some (.sym k) → s.symbols.name? k = some n → LeafAt s p (.sym n)
  | fresh : s.heap.Unbound p → s.vars.name? p = none → LeafAt s p .anonymous
  | var {n q} : n ≠ "" → s.heap.read? p = some (.ref q) → s.findVar? n = some q →
      LeafAt s p (.var n)

/-- A term is laid out at an address. -/
inductive Lays (s : Store) : Addr → Term → Prop where
  | leaf {p t} : s.LeafAt p t → Lays s p t
  | record {p q f n args} : s.heap.read? p = some (.rcd q) → s.heap.read? q = some (.sig f) →
      s.symbols.name? f.name = some n → f.arity = args.length →
      (∀ i (hi : i < args.length), Lays s (q + 1 + i) args[i]) → Lays s p (.record n args)
  | cons {p q car cdr} : s.heap.read? p = some (.lst q) → Lays s q car → Lays s (q + 1) cdr →
      Lays s p (.cons car cdr)

variable {s₀ s s' : Store} {p q a : Addr} {t : Term} {n : String} {ts : List Term} {x : Pending}
  {queue : List Pending} {P : Term → Prop}

/-- A term without parts keeps its cell while the store grows. -/
lemma LeafAt.grows (lf : s.LeafAt p t) (gr : s.Grows s') : s'.LeafAt p t := by
  have keep : ∀ {c}, s.heap.read? p = some c → ¬ c.IsPlaceholder → s'.heap.read? p = some c :=
    gr.keep
  cases lf with
  | int hr => exact .int (keep hr (by simp [Cell.IsPlaceholder]))
  | nil hr => exact .nil (keep hr (by simp [Cell.IsPlaceholder]))
  | sym hr hk => exact .sym (keep hr (by simp [Cell.IsPlaceholder])) (gr.symbols.name hk)
  | fresh ub hn =>
    exact .fresh (gr.ref ub) ((gr.name (Heap.isValid_of_read? ub)).trans hn)
  | var ne hr hf => exact .var ne (gr.ref hr) (gr.findVar? hf)

/-! ### Levels of terms that are laid out -/

/-- If names were sound, the cell of a term without parts is at its address. -/
lemma NodeAt.leafAt (nd : NodeAt s₀ s a t) (nm : s₀.Named) (leaf : t.pending? a = none) :
    s.LeafAt a t := by
  obtain ⟨c, hr, co⟩ := nd
  cases co with
  | int => exact .int hr
  | sym hk => exact .sym hr hk
  | nil => exact .nil hr
  | fresh unnamed => exact .fresh hr (unnamed nm)
  | var ne hf rt =>
    obtain rfl := rt.resolve_right fun h => h.1 nm
    exact .var ne hr hf
  | record => cases leaf
  | cons => cases leaf

/-- The terms of a row are laid out once those of them are that have parts. -/
lemma LeavesAt.lays (lv : LeavesAt s₀ s p ts) (nm : s₀.Named)
    (done : ∀ x ∈ Pending.row p ts, s.Lays x.cell x.term) :
    ∀ i (hi : i < ts.length), s.Lays (p + i) ts[i] := by
  intro i hi
  cases hx : ts[i].pending? (p + i) with
  | none => exact .leaf ((lv i hi hx).leafAt nm hx)
  | some x =>
    obtain ⟨hc, ht⟩ := Pending.pending?_eq_some hx
    rw [← hc, ← ht]
    exact done x (Pending.mem_row hi hx)

/-- A queued term is laid out once its parts are laid out where it points. -/
lemma PointsAt.lays (pa : s.PointsAt p x)
    (parts : ∀ i (hi : i < x.term.args.length), s.Lays (x.first p + i) x.term.args[i]) :
    s.Lays x.cell x.term := by
  cases x with
  | record cell n args =>
    obtain ⟨f, hf, hn, ha⟩ := pa.head
    exact .record pa.cell hf hn ha parts
  | pair cell car cdr => exact .cons pa.cell (parts 0 Nat.two_pos) (parts 1 Nat.one_lt_two)

/-- What a queue leaves behind are the terms in it. -/
theorem Spread.lays (sp : Spread s₀ s p queue q) (nm : s₀.Named) :
    ∀ x ∈ queue, s.Lays x.cell x.term := by
  -- from the last level to the first: the parts of a term come later in the queue
  induction sp with
  | done => nofun
  | fill pa lv _ ih =>
    intro y mem
    rcases List.mem_cons.mp mem with rfl | mem
    · exact pa.lays (lv.lays nm fun z hz => ih z (List.mem_append_right _ hz))
    · exact ih y (List.mem_append_left _ mem)

/-- What an address holds once nothing waits: the signature of a record, or a term. The record and
the term have the property `P`. -/
def Holds (s : Store) (P : Term → Prop) (p : Addr) : Prop :=
  (∃ f n args, s.heap.read? p = some (.sig f) ∧ s.symbols.name? f.name = some n ∧
    f.arity = args.length ∧ P (.record n args)) ∨
  ∃ t, P t ∧ s.Lays p t

/-- In front of the parts of a queued term is the signature, if it is a record. -/
lemma PointsAt.holds (pa : s.PointsAt p x) (whole : P x.term) (le : p ≤ a) (lt : a < x.first p) :
    s.Holds P a := by
  cases x with
  | record cell n args =>
    obtain ⟨f, hf, hn, ha⟩ := pa.head
    obtain rfl : a = p := Nat.le_antisymm (Nat.le_of_lt_succ lt) le
    exact .inl ⟨f, n, args, hf, hn, ha, whole⟩
  | pair cell car cdr => exact absurd le (Nat.not_le_of_lt lt)

/-- All that a queue leaves behind are signatures and parts of the terms in it. -/
theorem Spread.holds (sp : Spread s₀ s p queue q) (nm : s₀.Named) (her : Term.Hereditary P)
    (all : ∀ x ∈ queue, P x.term) (le : p ≤ a) (lt : a < q) : s.Holds P a := by
  induction sp with
  | done => exact absurd le (Nat.not_le_of_lt lt)
  | @fill p q x queue pa lv sp ih =>
    have whole : P x.term := all x (List.mem_cons_self ..)
    have part := her _ whole
    rcases Nat.lt_or_ge a (x.last p) with lt' | ge
    · rcases Nat.lt_or_ge a (x.first p) with lt'' | ge'
      · exact pa.holds whole le lt''
      · obtain ⟨i, rfl⟩ := Nat.exists_eq_add_of_le ge'
        have hi : i < x.term.args.length := Nat.lt_of_add_lt_add_left lt'
        have lays := lv.lays nm fun z hz => sp.lays nm z (List.mem_append_right _ hz)
        exact .inr ⟨_, part _ (List.getElem_mem hi), lays i hi⟩
    · refine ih ?_ ge lt
      intro y mem
      rcases List.mem_append.mp mem with mem | mem
      · exact all y (List.mem_cons_of_mem _ mem)
      · obtain ⟨i, hi, hy⟩ := Pending.exists_of_mem_row mem
        rw [(Pending.pending?_eq_some hy).2]
        exact part _ (List.getElem_mem hi)

/-- A term is laid out on top of the heap, and all cells allocated for it hold parts of it. -/
theorem addTerm_lays {root : Addr} (nm : s.Named) (ha : s.addTerm t = .ok (root, s')) :
    root = s.heap.top ∧ s.Grows s' ∧ s'.Lays root t ∧
      ∀ {P : Term → Prop}, Term.Hereditary P → P t →
        ∀ p, s.heap.size < p → p ≤ s'.heap.size → s'.Holds P p := by
  obtain ⟨rfl, rm, lv, sp, _⟩ := addTerm_spread nm.sound.byName ha
  have lays : s'.Lays s.heap.top t := lv.lays nm (sp.lays nm) 0 Nat.one_pos
  refine ⟨rfl, rm.grows nm, lays, ?_⟩
  intro P her whole p lt le
  rcases Nat.lt_or_eq_of_le lt with behind | rfl
  · refine sp.holds nm her ?_ behind (Nat.lt_succ_of_le le)
    intro x mem
    obtain ⟨i, hi, hx⟩ := Pending.exists_of_mem_row mem
    obtain rfl : i = 0 := Nat.lt_one_iff.mp hi
    rw [(Pending.pending?_eq_some hx).2]
    exact whole
  · exact .inr ⟨t, whole, lays⟩

/-! ### Laying succeeds -/

/-- A queued term can be filled in: its parts can be laid, and its cell is there. -/
structure Fit (s : Store) (x : Pending) : Prop where
  fits : x.term.fits = true
  isValid : s.heap.isValid x.cell = true

namespace Fit

/-- Adding cells does no harm. -/
lemma grow (ft : s.Fit x) (le : s.heap.top ≤ s'.heap.top) : s'.Fit x := by
  obtain ⟨pos, below⟩ := Heap.isValid_iff.mp ft.isValid
  exact ⟨ft.fits, Heap.isValid_iff.mpr ⟨pos, Nat.le_trans below (Nat.le_of_succ_le_succ le)⟩⟩

/-- The terms of a row that was laid can be filled in if they fit. -/
lemma row (fits : ∀ t ∈ ts, t.fits = true) (pos : 0 < p) (le : p + ts.length ≤ s.heap.top) :
    ∀ x ∈ Pending.row p ts, s.Fit x := by
  intro x mem
  obtain ⟨i, hi, hx⟩ := Pending.exists_of_mem_row mem
  obtain ⟨above, below⟩ := Pending.cell_of_mem_row mem
  refine ⟨?_, Heap.isValid_iff.mpr ⟨Nat.lt_of_lt_of_le pos above, ?_⟩⟩
  · rw [(Pending.pending?_eq_some hx).2]
    exact fits _ (List.getElem_mem hi)
  · exact Nat.le_of_lt_succ (Nat.lt_of_lt_of_le below le)

/-- The signature of a term that can be filled in has room for its arguments. -/
lemma exists_addHeader (ft : s.Fit x) : ∃ target s₁, s.addHeader x = .ok (target, s₁) := by
  cases x with
  | record cell n args =>
    have fits := ft.fits
    rw [Pending.term, Term.fits, Bool.and_eq_true] at fits
    have le : args.length ≤ maxArity := of_decide_eq_true fits.1
    simp only [addHeader, internSignature, Signature.of?, dif_pos le]
    exact ⟨_, _, rfl⟩
  | pair cell car cdr => exact ⟨_, _, rfl⟩

/-- A term that can be filled in is filled in, and so can then be its parts. -/
lemma exists_fill (ft : s.Fit x) (queue : List Pending) :
    ∃ s', (s.fill queue x).1 = .ok s' ∧
      ∀ y ∈ Pending.row (x.first s.heap.top) x.term.args, s'.Fit y := by
  obtain ⟨target, s₁, ho⟩ := ft.exists_addHeader
  obtain ⟨rfl, op⟩ := addHeader_eq_ok ho
  have ft₁ : (s₁.placeAll queue x.term.args).1.Fit x := by
    refine ft.grow (Nat.le_trans (x.le_first s.heap.top) ?_)
    rw [← op.top_eq, Heap.top, Heap.top, size_placeAll]
    exact Nat.succ_le_succ (Nat.le_add_right _ _)
  have filled : ∃ s', (s.fill queue x).1 = .ok s' := by
    rw [fill, ho]
    exact ⟨_, write_eq_ok.mpr ⟨ft₁.isValid, rfl⟩⟩
  obtain ⟨s', hf⟩ := filled
  refine ⟨s', hf, row (fun t mem => Term.fits_of_mem_args ft.fits mem) ?_ ?_⟩
  · exact Nat.lt_of_lt_of_le (Nat.succ_pos _) (x.le_first s.heap.top)
  · exact Nat.le_of_eq (fill_queue hf).2.symm

end Fit

/-- A queue of terms that can be filled in is drained. -/
lemma exists_drain (s : Store) (front back : List Pending)
    (ft : ∀ x ∈ front ++ back.reverse, s.Fit x) : ∃ s', s.drain front back = .ok s' := by
  fun_induction drain s front back with
  | case1 s => exact ⟨s, rfl⟩
  | case2 s b bs ih =>
    apply ih
    rw [List.reverse_nil, List.append_nil]
    exact ft
  | case3 s x front back filled e hf =>
    obtain ⟨s', hf', _⟩ := (ft x (by simp)).exists_fill back
    cases hf.symm.trans hf'
  | case4 s x front back filled s₁ hf ih =>
    obtain ⟨s', hf', parts⟩ := (ft x (by simp)).exists_fill back
    obtain rfl := Except.ok.inj (hf.symm.trans hf')
    obtain ⟨queued, top_eq⟩ := fill_queue hf
    apply ih
    intro y mem
    rw [queued, List.reverse_append, List.reverse_reverse, ← List.append_assoc] at mem
    rcases List.mem_append.mp mem with old | new
    · exact (ft y (List.mem_cons_of_mem _ old)).grow (top_eq ▸ x.le_last s.heap.top)
    · exact parts y new

/-- A term that fits can be laid onto every heap. -/
theorem exists_addTerm (s : Store) (ft : t.fits = true) :
    ∃ root s', s.addTerm t = .ok (root, s') := by
  have row : (s.place [] t).2 = Pending.row s.heap.top [t] := place_queue s [] t
  have fit : ∀ x ∈ (s.place [] t).2 ++ [].reverse, (s.place [] t).1.Fit x := by
    rw [row, List.reverse_nil, List.append_nil]
    exact Fit.row (by simpa using ft) (Nat.succ_pos _) (Nat.le_of_eq (s.top_place [] t).symm)
  obtain ⟨s', hd⟩ := exists_drain _ _ [] fit
  refine ⟨s.heap.top, s', ?_⟩
  simp only [addTerm, hd]

end Store
end TermHeap
