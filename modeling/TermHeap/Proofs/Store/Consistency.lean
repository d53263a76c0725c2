import TermHeap.Proofs.Heap.WellFormed
import TermHeap.Proofs.Store.Layout

/-!
# Consistent stores

A store is consistent if its cells point into a set `V` of addresses of cells, references have an
end, the symbols of its cells are in the table and its names are sound. This is what all operations
keep: growth by complete cells (`Consistent.grows`), which laying a term is (`Consistent.addTerm`),
and the binding of variables (`Consistent.binds`). The set `V` is a parameter, since it depends on
where unification is allowed to start: the addresses of values, or those of all cells.
-/

namespace TermHeap.Store

/-- The cells of a store point into `V`, references have an end, and symbols and names are known. -/
structure Consistent (s : Store) (V : Addr → Prop) : Prop where
  points : s.heap.PointsInto V
  valid : ∀ {p}, V p → s.heap.isValid p = true
  noRefCycle : s.heap.NoRefCycle
  sym : ∀ {p k}, s.heap.read? p = some (.sym k) → ∃ n, s.symbols.name? k = some n
  sig : ∀ {p f}, s.heap.read? p = some (.sig f) → ∃ n, s.symbols.name? f.name = some n
  named : s.Named

/-- A cell as it is laid down: its symbol is known, and what it points at has been laid down. -/
def Complete (s : Store) (p : Addr) : Cell → Prop
  | .ref q => s.heap.Unbound p ∨ ∃ n, s.findVar? n = some q
  | .rcd q => ∃ f, s.heap.read? q = some (.sig f) ∧ ∀ i < f.arity, s.heap.IsValue (q + 1 + i)
  | .lst q => s.heap.IsValue q ∧ s.heap.IsValue (q + 1)
  | .sym k => ∃ n, s.symbols.name? k = some n
  | .sig f => ∃ n, s.symbols.name? f.name = some n
  | .int _ | .nil => True

variable {s s' : Store} {V W : Addr → Prop} {p q : Addr} {c : Cell} {t : Term} {n : String}

/-! ### Growth -/

namespace Consistent

/-- The empty store is consistent. -/
lemma of_empty (capacity : Nat) (no : ∀ p, ¬ V p) : (Store.empty capacity).Consistent V := by
  have noCell : ∀ {p c}, (Store.empty capacity).heap.read? p ≠ some c := by
    intro p c hr
    exact absurd ((Heap.read?_empty capacity p).symm.trans hr) nofun
  have noStep : ∀ {p q}, ¬ (Store.empty capacity).heap.RefStep p q := fun st => noCell st.1
  refine ⟨⟨?_, ?_, ?_⟩, fun vp => absurd vp (no _), ?_, ?_, ?_, named_empty capacity⟩
  · exact fun hr => absurd hr noCell
  · exact fun hr => absurd hr noCell
  · exact fun hr => absurd hr noCell
  · exact Heap.noRefCycle_of_ends fun p => ⟨p, .here fun _ => noStep⟩
  · exact fun hr => absurd hr noCell
  · exact fun hr => absurd hr noCell

/-- The set may be made larger by addresses of cells. -/
lemma mono (cs : s.Consistent V) (sub : ∀ {p}, V p → W p)
    (valid : ∀ {p}, W p → s.heap.isValid p = true) : s.Consistent W :=
  { cs with points := cs.points.mono fun _ => sub, valid }

/-- No cell of a consistent store is a placeholder. -/
lemma not_isPlaceholder (cs : s.Consistent V) (hr : s.heap.read? p = some c) :
    ¬ c.IsPlaceholder := by
  have zero : s.heap.isValid 0 ≠ true := by simp [Heap.isValid_iff]
  rintro (rfl | rfl)
  · obtain ⟨f, hf, _⟩ := cs.points.rcd hr
    exact zero (Heap.isValid_of_read? hf)
  · exact zero (cs.valid (cs.points.lst hr).1)

/-- Growth keeps all cells of a consistent store. -/
lemma keep (cs : s.Consistent V) (gr : s.Grows s') (hr : s.heap.read? p = some c) :
    s'.heap.read? p = some c := gr.keep hr (cs.not_isPlaceholder hr)

/-- All cells of a consistent store are in the heap that grew out of it. -/
lemma within (cs : s.Consistent V) (gr : s.Grows s') : s.heap.Within s'.heap :=
  fun _ _ => cs.keep gr

/-- Growth of a consistent store keeps its values. -/
lemma isValue (cs : s.Consistent V) (gr : s.Grows s') (vl : s.heap.IsValue p) :
    s'.heap.IsValue p := by
  obtain ⟨c, hr, ns⟩ := vl
  exact ⟨c, cs.keep gr hr, ns⟩

/-- A cell of the later store was there before, or it is new. -/
lemma old_or_new (cs : s.Consistent V) (gr : s.Grows s') (hr : s'.heap.read? p = some c) :
    s.heap.read? p = some c ∨ s.heap.size < p := by
  by_cases val : s.heap.isValid p = true
  · obtain ⟨d, hd⟩ := Option.isSome_iff_exists.mp ((Heap.isSome_read? _ _).trans val)
    obtain rfl := Option.some.inj ((cs.keep gr hd).symm.trans hr)
    exact .inl hd
  · right
    have pos := (Heap.isValid_iff.mp (Heap.isValid_of_read? hr)).1
    exact Nat.lt_of_not_le fun le => val (Heap.isValid_iff.mpr ⟨pos, le⟩)

/-- References that had an end have the same end later. -/
lemma ends (cs : s.Consistent V) (gr : s.Grows s') {e : Addr} (en : s.heap.Ends p e)
    (val : s.heap.isValid p = true) : s'.heap.Ends p e :=
  (cs.within gr).ends cs.points (fun _ => cs.valid) val en

/-- Growth by complete cells keeps references from running in circles: a new reference leads to
itself or to a named variable, which is old or unbound. -/
lemma noRefCycle_of_grows (cs : s.Consistent V) (gr : s.Grows s')
    (new : ∀ {p c}, s.heap.size < p → s'.heap.read? p = some c → s'.Complete p c) :
    s'.heap.NoRefCycle := by
  have old : ∀ {p}, s.heap.isValid p = true → ∃ e, s'.heap.Ends p e := by
    intro p val
    obtain ⟨e, en⟩ := cs.noRefCycle.exists_ends p
    exact ⟨e, cs.ends gr en val⟩
  -- every walk has an end: an old cell keeps its own, a new one is unbound or joins such a walk
  apply Heap.noRefCycle_of_ends
  intro p
  cases hr : s'.heap.read? p with
  | none => exact ⟨p, .of_no_cell hr⟩
  | some c =>
    rcases cs.old_or_new gr hr with hr' | lt
    · exact old (Heap.isValid_of_read? hr')
    · by_cases rf : ∃ q, c = .ref q
      · obtain ⟨q, rfl⟩ := rf
        rcases new lt hr with ub | ⟨n, hf⟩
        · exact ⟨p, ub.ends⟩
        · obtain ⟨e, en⟩ : ∃ e, s'.heap.Ends q e := by
            rcases gr.findVar?_cases cs.named hf with hf | ⟨_, _, ub⟩
            · obtain ⟨r, hq⟩ := cs.named.findVar?_cell hf
              exact old (Heap.isValid_of_read? hq)
            · exact ⟨q, ub.ends⟩
          by_cases e : q = p
          · exact ⟨_, e ▸ en⟩
          · exact ⟨_, .next ⟨hr, e⟩ en⟩
      · exact ⟨p, .of_cell hr fun q e => rf ⟨q, e⟩⟩

/-- A store that grows by complete cells stays consistent. -/
theorem grows (cs : s.Consistent V) (gr : s.Grows s')
    (new : ∀ {p c}, s.heap.size < p → s'.heap.read? p = some c → s'.Complete p c)
    (old : ∀ {p}, V p → W p) (value : ∀ {p}, s'.heap.IsValue p → W p)
    (valid : ∀ {p}, W p → s'.heap.isValid p = true) : s'.Consistent W := by
  refine ⟨⟨?_, ?_, ?_⟩, valid, cs.noRefCycle_of_grows gr new, ?_, ?_, gr.named⟩
  · intro p q hr
    rcases cs.old_or_new gr hr with hr' | lt
    · exact old (cs.points.ref hr')
    · rcases new lt hr with ub | ⟨n, hf⟩
      · have e := Option.some.inj (hr.symm.trans ub)
        cases e
        exact value ⟨_, ub, nofun⟩
      · obtain ⟨r, hq⟩ := gr.named.findVar?_cell hf
        exact value ⟨_, hq, nofun⟩
  · intro p q hr
    rcases cs.old_or_new gr hr with hr' | lt
    · obtain ⟨f, hf, args⟩ := cs.points.rcd hr'
      exact ⟨f, cs.keep gr hf, fun i hi => old (args i hi)⟩
    · obtain ⟨f, hf, args⟩ := new lt hr
      exact ⟨f, hf, fun i hi => value (args i hi)⟩
  · intro p q hr
    rcases cs.old_or_new gr hr with hr' | lt
    · obtain ⟨h₁, h₂⟩ := cs.points.lst hr'
      exact ⟨old h₁, old h₂⟩
    · obtain ⟨h₁, h₂⟩ := new lt hr
      exact ⟨value h₁, value h₂⟩
  · intro p k hr
    rcases cs.old_or_new gr hr with hr' | lt
    · obtain ⟨n, hk⟩ := cs.sym hr'
      exact ⟨n, gr.symbols.name hk⟩
    · exact new lt hr
  · intro p f hr
    rcases cs.old_or_new gr hr with hr' | lt
    · obtain ⟨n, hk⟩ := cs.sig hr'
      exact ⟨n, gr.symbols.name hk⟩
    · exact new lt hr

end Consistent

/-! ### The operations -/

/-- There is a value where a term without parts was laid. -/
lemma LeafAt.isValue (lf : s.LeafAt p t) : s.heap.IsValue p := by
  cases lf with
  | int hr => exact ⟨_, hr, nofun⟩
  | nil hr => exact ⟨_, hr, nofun⟩
  | sym hr _ => exact ⟨_, hr, nofun⟩
  | fresh ub _ => exact ⟨_, ub, nofun⟩
  | var _ hr _ => exact ⟨_, hr, nofun⟩

/-- There is a value where a term was laid. -/
lemma Lays.isValue (la : s.Lays p t) : s.heap.IsValue p := by
  cases la with
  | leaf lf => exact lf.isValue
  | record hr => exact ⟨_, hr, nofun⟩
  | cons hr => exact ⟨_, hr, nofun⟩

/-- The cell of a term without parts is complete. -/
lemma LeafAt.complete (lf : s.LeafAt p t) (hc : s.heap.read? p = some c) : s.Complete p c := by
  cases lf with
  | int hr =>
    obtain rfl := Option.some.inj (hr.symm.trans hc)
    trivial
  | nil hr =>
    obtain rfl := Option.some.inj (hr.symm.trans hc)
    trivial
  | sym hr hk =>
    obtain rfl := Option.some.inj (hr.symm.trans hc)
    exact ⟨_, hk⟩
  | fresh ub _ =>
    obtain rfl := Option.some.inj (ub.symm.trans hc)
    exact .inl ub
  | var _ hr hf =>
    obtain rfl := Option.some.inj (hr.symm.trans hc)
    exact .inr ⟨_, hf⟩

/-- Every cell that holds part of a term is complete. -/
lemma Holds.complete {P : Term → Prop} (hd : s.Holds P p) (hc : s.heap.read? p = some c) :
    s.Complete p c := by
  rcases hd with ⟨f, n, _, hf, hn, _⟩ | ⟨t, _, la⟩
  · obtain rfl := Option.some.inj (hf.symm.trans hc)
    exact ⟨n, hn⟩
  · cases la with
    | leaf lf => exact lf.complete hc
    | record hr hf _ ha args =>
      obtain rfl := Option.some.inj (hr.symm.trans hc)
      exact ⟨_, hf, fun i hi => (args i (ha ▸ hi)).isValue⟩
    | cons hr car cdr =>
      obtain rfl := Option.some.inj (hr.symm.trans hc)
      exact ⟨car.isValue, cdr.isValue⟩

namespace Consistent

/-- Laying a term keeps a store consistent. -/
theorem addTerm {root : Addr} (cs : s.Consistent V) (ha : s.addTerm t = .ok (root, s'))
    (old : ∀ {p}, V p → W p) (value : ∀ {p}, s'.heap.IsValue p → W p)
    (valid : ∀ {p}, W p → s'.heap.isValid p = true) : s'.Consistent W := by
  obtain ⟨_, gr, _, holds⟩ := addTerm_lays cs.named ha
  apply cs.grows gr _ old value valid
  intro p c lt hr
  have le := (Heap.isValid_iff.mp (Heap.isValid_of_read? hr)).2
  exact (holds (P := fun _ => True) (fun _ _ _ _ => trivial) trivial p lt le).complete hr

/-- Binding variables keeps a store consistent, as long as cells keep pointing into `V`. -/
theorem binds {h : Heap} (cs : s.Consistent V) (bd : s.heap.Binds h) (pt : h.PointsInto V)
    (nc : h.NoRefCycle) : Consistent { s with heap := h } V := by
  refine ⟨pt, fun vp => (bd.isValid _).trans (cs.valid vp), nc, ?_, ?_, cs.named.of_heap ?_⟩
  · intro p k hr
    exact cs.sym ((bd.read?_iff (c := .sym k) nofun).mp hr)
  · intro p f hr
    exact cs.sig ((bd.read?_iff (c := .sig f) nofun).mp hr)
  · intro p q hr
    by_cases ub : s.heap.Unbound p
    · obtain ⟨r, hb⟩ := bd.bound ub
      exact ⟨r, hb⟩
    · exact ⟨q, bd.keep hr ub⟩

end Consistent

end TermHeap.Store
