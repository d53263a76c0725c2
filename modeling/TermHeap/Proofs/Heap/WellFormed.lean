import TermHeap.Proofs.Heap.Binding

/-!
# Well-formed heaps

`PointsInto h V` says that all addresses at which a cell of `h` expects a value belong to `V`, and
that every record has its signature. A heap is well formed if these addresses hold values, so that
no signature stands where a value should be, and if it has no cycle of references. Binding a
variable to an address of `V` keeps this (`PointsInto.bind`).
-/

namespace TermHeap.Heap

/-- A cell is at the address, and it is no signature. -/
def IsValue (h : Heap) (p : Addr) : Prop := ∃ c, h.read? p = some c ∧ ∀ f, c ≠ .sig f

/-- References lead into `V`, records point at a signature with its arguments after it in `V`, and
list pairs point at two neighbouring addresses in `V`. -/
structure PointsInto (h : Heap) (V : Addr → Prop) : Prop where
  ref : ∀ {p q}, h.read? p = some (.ref q) → V q
  rcd : ∀ {p q}, h.read? p = some (.rcd q) →
    ∃ f, h.read? q = some (.sig f) ∧ ∀ i < f.arity, V (q + 1 + i)
  lst : ∀ {p q}, h.read? p = some (.lst q) → V q ∧ V (q + 1)

/-- The targets of all cells are values, and references have an end. -/
structure WellFormed (h : Heap) : Prop where
  points : h.PointsInto h.IsValue
  noRefCycle : h.NoRefCycle

/-- All cells of a heap are cells of another one. -/
def Within (h h' : Heap) : Prop := ∀ p c, h.read? p = some c → h'.read? p = some c

variable {h h' : Heap} {V W : Addr → Prop} {p q e x y : Addr} {l : Head} {ps : List Addr}

/-- There is a cell where there is a value. -/
lemma IsValue.isValid (vl : h.IsValue p) : h.isValid p = true := by
  obtain ⟨c, hr, _⟩ := vl
  exact isValid_of_read? hr

/-- The set may be made larger. -/
lemma PointsInto.mono (pt : h.PointsInto V) (sub : ∀ p, V p → W p) : h.PointsInto W := by
  refine ⟨fun hr => sub _ (pt.ref hr), ?_, fun hr => ⟨sub _ (pt.lst hr).1, sub _ (pt.lst hr).2⟩⟩
  intro p q hr
  obtain ⟨f, hf, args⟩ := pt.rcd hr
  exact ⟨f, hf, fun i hi => sub _ (args i hi)⟩

/-- References from an address of `V` stay in `V`. -/
lemma PointsInto.ends (pt : h.PointsInto V) (vp : V p) (en : h.Ends p e) : V e := by
  induction en with
  | here => exact vp
  | next st _ ih => exact ih (pt.ref st.1)

/-- The parts of a term at an address of `V` are in `V`. -/
lemma PointsInto.part (pt : h.PointsInto V) (hv : h.view p = .node l ps) : ∀ q ∈ ps, V q := by
  rw [view] at hv
  split at hv
  · rename_i e c hd
    obtain ⟨_, hr⟩ := deref_eq_ok_iff.mp hd
    cases c with
    | lst car =>
      cases hv
      intro q mem
      obtain ⟨h₁, h₂⟩ := pt.lst hr
      rcases List.mem_cons.mp mem with rfl | mem
      · exact h₁
      · obtain rfl := List.mem_singleton.mp mem
        exact h₂
    | rcd target =>
      obtain ⟨f, hf, args⟩ := pt.rcd hr
      rw [cellView, signature?, hf] at hv
      cases hv
      intro q mem
      obtain ⟨i, hi, rfl⟩ := List.mem_range'.mp mem
      rw [Nat.one_mul]
      exact args i hi
    | ref q => cases hv
    | _ =>
      cases hv
      simp
  · cases hv
    simp

/-- A variable may be bound to an address of `V`. -/
lemma PointsInto.bind (pt : h.PointsInto V) (ub : h.Unbound x) (vy : V y) :
    (h.write x (.ref y)).PointsInto V := by
  have bd : Binds h (h.write x (.ref y)) := .bind ub
  refine ⟨?_, ?_, ?_⟩
  · intro p q hr
    rw [read?_bind ub] at hr
    split at hr
    · cases hr
      exact vy
    · exact pt.ref hr
  · intro p q hr
    obtain ⟨f, hf, args⟩ := pt.rcd ((bd.read?_iff (c := .rcd q) nofun).mp hr)
    exact ⟨f, (bd.read?_iff (c := .sig f) nofun).mpr hf, args⟩
  · intro p q hr
    exact pt.lst ((bd.read?_iff (c := .lst q) nofun).mp hr)

/-- What was a value is one after variables were bound. -/
lemma Binds.isValue (bd : Binds h h') (vl : h.IsValue p) : h'.IsValue p := by
  obtain ⟨c, hr, ns⟩ := vl
  by_cases ub : h.Unbound p
  · obtain ⟨q, hq⟩ := bd.bound ub
    exact ⟨_, hq, nofun⟩
  · exact ⟨c, bd.keep hr ub, ns⟩

/-! ### Heaps with more cells -/

/-- More cells do not move the ends of references between the old ones. -/
lemma Within.ends (wi : h.Within h') (pt : h.PointsInto V) (val : ∀ p, V p → h.isValid p = true)
    (vp : h.isValid p = true) (en : h.Ends p e) : h'.Ends p e := by
  induction en with
  | here no =>
    obtain ⟨c, hr⟩ := Option.isSome_iff_exists.mp ((isSome_read? _ _).trans vp)
    apply Ends.here
    rintro q ⟨hq, ne⟩
    obtain rfl := Option.some.inj ((wi _ _ hr).symm.trans hq)
    exact no q ⟨hr, ne⟩
  | next st _ ih => exact .next ⟨wi _ _ st.1, st.2⟩ (ih (val _ (pt.ref st.1)))

/-- More cells change nothing of what `deref` finds from the old ones. -/
lemma Within.deref_eq (wi : h.Within h') (pt : h.PointsInto V)
    (val : ∀ p, V p → h.isValid p = true) (nc : h.NoRefCycle) (vp : h.isValid p = true) :
    h'.deref p = h.deref p := by
  obtain ⟨e, en⟩ := nc.exists_ends p
  have ve : h.isValid e = true := by
    cases en with
    | here => exact vp
    | next st en => exact val _ (pt.ends (pt.ref st.1) en)
  obtain ⟨c, hr⟩ := Option.isSome_iff_exists.mp ((isSome_read? _ _).trans ve)
  rw [deref_of_ends en, deref_of_ends (wi.ends pt val vp en), found, found, hr, wi _ _ hr]

/-! ### Checking a heap -/

/-- Whether a value is at an address. -/
def holdsValue (h : Heap) (p : Addr) : Bool :=
  match h.read? p with
  | none | some (.sig _) => false
  | some _ => true

/-- Whether the cells that a cell points at are as they should be. -/
def goodCell (h : Heap) : Cell → Bool
  | .ref q => h.holdsValue q
  | .rcd q =>
    match h.signature? q with
    | some f => (List.range f.arity).all fun i => h.holdsValue (q + 1 + i)
    | none => false
  | .lst q => h.holdsValue q && h.holdsValue (q + 1)
  | _ => true

/-- Whether all cells of a heap are as they should be. -/
def check (h : Heap) : Bool :=
  (List.range h.size).all fun i =>
    (h.read? (i + 1)).all h.goodCell && (h.deref (i + 1)).toBool

/-- What was checked at all addresses of a heap holds of all its cells. -/
lemma all_cells {good : Cell → Bool}
    (all : ∀ i < h.size, (h.read? (i + 1)).all good = true) {p : Addr} {c : Cell}
    (hr : h.read? p = some c) : good c = true := by
  obtain ⟨pos, le⟩ := isValid_iff.mp (isValid_of_read? hr)
  obtain ⟨i, rfl⟩ := Nat.exists_eq_add_of_le' pos
  have := all i le
  rwa [hr] at this

/-- The check of an address finds a value if there is one. -/
lemma isValue_iff : h.IsValue p ↔ h.holdsValue p = true := by
  rw [IsValue, holdsValue]
  split <;> simp_all

/-- A heap that passes the check is well formed. -/
theorem wellFormed_of_check (hc : h.check = true) : h.WellFormed := by
  rw [check, List.all_eq_true] at hc
  have cell : ∀ {p c}, h.read? p = some c → h.goodCell c = true := fun hr =>
    all_cells (fun i lt => (Bool.and_eq_true_iff.mp (hc i (List.mem_range.mpr lt))).1) hr
  refine ⟨⟨?_, ?_, ?_⟩, ?_⟩
  · intro p q hr
    exact isValue_iff.mpr (cell hr)
  · intro p q hr
    have good := cell hr
    rw [goodCell] at good
    split at good
    · rename_i f hf
      refine ⟨f, signature?_eq_some.mp hf, ?_⟩
      intro i hi
      exact isValue_iff.mpr (List.all_eq_true.mp good i (by simpa using hi))
    · cases good
  · intro p q hr
    have good := Bool.and_eq_true_iff.mp (cell hr)
    exact ⟨isValue_iff.mpr good.1, isValue_iff.mpr good.2⟩
  · apply noRefCycle_of_deref
    intro i hi
    exact (Bool.and_eq_true_iff.mp (hc i (by simpa using hi))).2

end TermHeap.Heap
