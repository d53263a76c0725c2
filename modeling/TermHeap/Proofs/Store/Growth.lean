import TermHeap.Proofs.Store.Names

/-!
# How a store grows

Laying terms adds cells, symbols and names, and of the cells that there are it overwrites the
placeholders only. `Grows s s'` says so, and it says that names stay sound. Each operation that adds
to a store is a step of growth (`grows_alloc`, `grows_intern`, `grows_pushVar_new`, `grows_write`).
-/

namespace TermHeap

/-- A record or list pair that points nowhere yet. -/
def Cell.IsPlaceholder (c : Cell) : Prop := c = .rcd 0 ∨ c = .lst 0

namespace Heap

variable {h : Heap} {p : Addr} {c : Cell}

/-- A heap without cells has no cell at any address. -/
lemma read?_empty (capacity : Nat) (p : Addr) : (empty capacity).read? p = none := by
  cases p <;> rfl

/-- The next free address has no cell. -/
lemma not_isValid_top (h : Heap) : h.isValid h.top ≠ true := by
  rw [ne_eq, isValid_iff]
  rintro ⟨_, le⟩
  exact Nat.not_succ_le_self h.size le

/-- The address of a cell is not the next free one. -/
lemma ne_top_of_isValid (val : h.isValid p = true) : p ≠ h.top := by
  rintro rfl
  exact h.not_isValid_top val

/-- The cells that there are stay when one is added. -/
lemma read?_push_of_some {d : Cell} (hr : h.read? p = some c) : (h.push d).read? p = some c := by
  rw [read?_push, if_neg (ne_top_of_isValid (isValid_of_read? hr)), hr]

/-- A cell is added at the next free address. -/
@[simp] lemma read?_push_top (h : Heap) (c : Cell) : (h.push c).read? h.top = some c := by
  rw [read?_push, if_pos rfl]

/-- A reference to a cell points at the cell. -/
lemma refTo_of_isValid (val : h.isValid p = true) : h.refTo p = .ref p := if_pos val

end Heap

namespace Store

variable {s s' s'' : Store} {k : Symbol} {n : String} {p q : Addr} {c : Cell}

/-- The later store has the cells of the earlier one, placeholders apart, its symbols and its
names. What is named later is an unbound variable of its own. -/
structure Grows (s s' : Store) : Prop where
  size_le : s.heap.size ≤ s'.heap.size
  keep : ∀ {p c}, s.heap.read? p = some c → ¬ c.IsPlaceholder → s'.heap.read? p = some c
  symbols : s.symbols.Extends s'.symbols
  addr : ∀ {k p}, s.vars.addr? k = some p → s'.vars.addr? k = some p
  name : ∀ {p}, s.heap.isValid p = true → s'.vars.name? p = s.vars.name? p
  fresh : ∀ {k p}, s'.vars.addr? k = some p →
    s.vars.addr? k = some p ∨ s.heap.size < p ∧ s'.heap.Unbound p
  named : s'.Named

namespace Grows

/-- A store whose names are sound has grown out of itself. -/
lemma refl (nm : s.Named) : s.Grows s :=
  ⟨Nat.le_refl _, fun hr _ => hr, .refl _, id, fun _ => rfl, .inl, nm⟩

/-- No cell is removed. -/
lemma isValid (gr : s.Grows s') (val : s.heap.isValid p = true) : s'.heap.isValid p = true := by
  obtain ⟨pos, le⟩ := Heap.isValid_iff.mp val
  exact Heap.isValid_iff.mpr ⟨pos, Nat.le_trans le gr.size_le⟩

/-- References stay as they are. -/
lemma ref (gr : s.Grows s') (hr : s.heap.read? p = some (.ref q)) :
    s'.heap.read? p = some (.ref q) := by
  apply gr.keep hr
  rintro (e | e) <;> cases e

/-- What grows out of a store that has grown has grown out of the first one. -/
lemma trans (gr : s.Grows s') (gr' : s'.Grows s'') : s.Grows s'' where
  size_le := Nat.le_trans gr.size_le gr'.size_le
  keep hr np := gr'.keep (gr.keep hr np) np
  symbols := gr.symbols.trans gr'.symbols
  addr ha := gr'.addr (gr.addr ha)
  name val := (gr'.name (gr.isValid val)).trans (gr.name val)
  fresh := by
    intro k p ha
    rcases gr'.fresh ha with ha | ⟨lt, ub⟩
    · rcases gr.fresh ha with ha | ⟨lt, ub⟩
      · exact .inl ha
      · exact .inr ⟨lt, gr'.ref ub⟩
    · exact .inr ⟨Nat.lt_of_le_of_lt gr.size_le lt, ub⟩
  named := gr'.named

/-- A variable that was found is found later. -/
lemma findVar? (gr : s.Grows s') (hf : s.findVar? n = some p) : s'.findVar? n = some p := by
  obtain ⟨k, hk, ha⟩ := findVar?_eq_some.mp hf
  exact findVar?_eq_some.mpr ⟨k, gr.symbols.find hk, gr.addr ha⟩

/-- A variable found later was found before, or it is new and unbound. -/
lemma findVar?_cases (gr : s.Grows s') (nm : s.Named) (hf : s'.findVar? n = some p) :
    s.findVar? n = some p ∨ s.findVar? n = none ∧ s.heap.size < p ∧ s'.heap.Unbound p := by
  obtain ⟨k, hk, ha⟩ := findVar?_eq_some.mp hf
  rcases gr.fresh ha with ha | ⟨lt, ub⟩
  · -- the symbol was known before, and it has one name only
    obtain ⟨m, hm⟩ := nm.known (nm.sound.inverse.mp ha)
    obtain rfl := Symbols.name_unique (gr.symbols.find hm) hk
    exact .inl (findVar?_eq_some.mpr ⟨k, hm, ha⟩)
  · cases hs : s.findVar? n with
    | none => exact .inr ⟨rfl, lt, ub⟩
    | some q =>
      obtain rfl : q = p := Option.some.inj ((gr.findVar? hs).symm.trans hf)
      exact .inl rfl

end Grows

/-! ### The operations -/

/-- A cell that was overwritten exists, and nothing else changed. -/
lemma write_eq_ok :
    s.write p c = .ok s' ↔ s.heap.isValid p = true ∧ s' = { s with heap := s.heap.write p c } := by
  rw [write]
  split
  · rename_i val
    rw [Except.ok.injEq, eq_comm]
    exact (and_iff_right val).symm
  · rename_i bad
    exact ⟨nofun, fun h => absurd h.1 bad⟩

/-- A signature that was made has the symbol of its name, which is interned, and its arity. -/
lemma internSignature_eq_ok {f : Signature} {m : Nat}
    (hi : s.internSignature n m = .ok (f, s')) :
    s' = (s.intern n).2 ∧ f.name = (s.symbols.intern n).1 ∧ f.arity = m := by
  simp only [internSignature, Signature.of?] at hi
  split at hi
  · rename_i g hg
    split at hg
    · obtain rfl := Option.some.inj hg
      cases hi
      exact ⟨rfl, rfl, rfl⟩
    · cases hg
  · cases hi

/-- Names stay sound when cells change, as long as references stay references. -/
lemma Named.of_heap (nm : s.Named) {h : Heap}
    (keep : ∀ {p q}, s.heap.read? p = some (.ref q) → ∃ q', h.read? p = some (.ref q')) :
    Named { s with heap := h } := by
  refine ⟨nm.sound, nm.known, ?_⟩
  intro k p hn
  obtain ⟨q, hr⟩ := nm.cell hn
  exact keep hr

/-- A store grows when a cell is added. -/
lemma grows_alloc (nm : s.Named) (c : Cell) : s.Grows (s.alloc c) where
  size_le := by simp [alloc]
  keep hr _ := Heap.read?_push_of_some hr
  symbols := .refl _
  addr := id
  name _ := rfl
  fresh := .inl
  named := nm.of_heap fun hr => ⟨_, Heap.read?_push_of_some hr⟩

/-- A store grows when a placeholder is overwritten. -/
lemma grows_write {d : Cell} (nm : s.Named) (hd : s.heap.read? p = some d) (ph : d.IsPlaceholder) :
    s.Grows { s with heap := s.heap.write p c } := by
  have keep : ∀ {q e}, s.heap.read? q = some e → ¬ e.IsPlaceholder →
      (s.heap.write p c).read? q = some e := by
    intro q e hr np
    rw [Heap.read?_write, if_neg, hr]
    rintro ⟨rfl, _⟩
    obtain rfl := Option.some.inj (hd.symm.trans hr)
    exact np ph
  have named : Named { s with heap := s.heap.write p c } := by
    apply nm.of_heap
    intro p q hr
    refine ⟨q, keep hr ?_⟩
    rintro (e | e) <;> cases e
  exact ⟨by simp, keep, .refl _, id, fun _ => rfl, .inl, named⟩

/-- A store grows when a name is interned. -/
lemma grows_intern (nm : s.Named) (n : String) : s.Grows (s.intern n).2 where
  size_le := Nat.le_refl _
  keep hr _ := hr
  symbols := s.symbols.extends_intern n
  addr := id
  name _ := rfl
  fresh := .inl
  named := ⟨nm.sound, (nm.paired.intern n).known, nm.cell⟩

/-- A variable of a new name is an unbound cell on top of the heap that gets the name. -/
lemma pushVar_new (hf : s.findVar? n = none) : s.pushVar n =
    (s.heap.top, ⟨s.heap.push (.ref s.heap.top), (s.symbols.intern n).2,
      s.vars.assign s.heap.top (s.symbols.intern n).1⟩) := by
  rw [pushVar, hf]
  rfl

/-- A variable gets the next free address. -/
lemma pushVar_fst (s : Store) (n : String) : (s.pushVar n).1 = s.heap.top := by
  rw [pushVar]
  split <;> rfl

/-- A store grows when a variable of a new name is added. -/
lemma grows_pushVar_new (nm : s.Named) (hf : s.findVar? n = none) : s.Grows (s.pushVar n).2 := by
  have noAddr := nm.paired.addr?_intern_eq_none hf
  have paired := nm.paired.assignName hf (nm.name?_eq_none s.heap.not_isValid_top)
  rw [pushVar_new hf]
  refine ⟨by simp, fun hr _ => Heap.read?_push_of_some hr, s.symbols.extends_intern n, ?_, ?_, ?_,
    paired.sound, paired.known, ?_⟩
  · intro k p ha
    rw [nm.sound.addr?_assign, if_neg, ha]
    rintro rfl
    rw [noAddr] at ha
    cases ha
  · intro p val
    rw [nm.sound.name?_assign, if_neg (Heap.ne_top_of_isValid val)]
  · intro k p ha
    rw [nm.sound.addr?_assign] at ha
    split at ha
    · obtain rfl := Option.some.inj ha
      exact .inr ⟨Nat.lt_succ_self _, Heap.read?_push_top _ _⟩
    · exact .inl ha
  · intro k p hn
    rw [nm.sound.name?_assign] at hn
    split at hn
    · rename_i hp
      subst hp
      exact ⟨_, Heap.read?_push_top _ _⟩
    · obtain ⟨q, hr⟩ := nm.cell hn
      exact ⟨q, Heap.read?_push_of_some hr⟩

end Store
end TermHeap
