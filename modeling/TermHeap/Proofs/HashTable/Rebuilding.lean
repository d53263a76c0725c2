import TermHeap.Proofs.HashTable.Refinement

/-!
# Rebuilding a table in one array

The chains of a table are walked while new ones are built in the same array. The new buckets and
entries lie above everything that was there, and storing keeps what lies below (`Above.store`), so
the walk sees the old chains as they were. All their entries are stored once more
(`Represents.rehash`), which is all that growing adds to storing a value (`Represents.put`).
-/

namespace TermHeap

variable {κ ν : Type} {g : Growing (Slot κ ν)} {t : LinkedTable κ ν} {m : HashTable κ ν}
  {base base' a b n fuel : Nat} {es : List (κ × ν)} {rows : List (List (κ × ν))}

/-- A row above a place lies above any lower place. -/
lemma Linked.weaken (ln : Linked g base a es b) (le : base' ≤ base) : Linked g base' a es b := by
  induction ln with
  | nil a => exact .nil a
  | cons above entry _ ih => exact .cons (Nat.lt_of_le_of_lt le above) entry ih

/-- Rows of linked entries, to which neighbouring slots lead. -/
def LinkedRows (g : Growing (Slot κ ν)) (b : Nat) (rows : List (List (κ × ν))) : Prop :=
  ∀ j es, rows[j]? = some es → ∃ a, g.get? (b + j) = some (.bucket a) ∧ Linked g 0 a es 0

/-- From the next slot on, the other rows are linked. -/
lemma LinkedRows.tail (lr : LinkedRows g b (es :: rows)) : LinkedRows g (b + 1) rows := by
  intro j es hj
  obtain ⟨a, hb, ln⟩ := lr (j + 1) es hj
  exact ⟨a, by rwa [Nat.add_assoc, Nat.add_comm 1 j], ln⟩

variable [DecidableEq κ] [HashKey κ]

/-- A table above a place lies above any lower place. -/
lemma Represents.weaken (rep : Represents base t m) (le : base' ≤ base) :
    Represents base' t m := by
  refine ⟨rep.counted, Nat.lt_of_le_of_lt le rep.above, rep.numbers, fun i hi => ?_⟩
  obtain ⟨a, hb, ln⟩ := rep.chain i hi
  exact ⟨a, hb, ln.weaken le⟩

/-- The buckets of a table lead to its chains. -/
lemma Represents.linkedRows (rep : Represents base t m) :
    LinkedRows t.slots t.firstBucket m.buckets.toList := by
  intro i es hi
  rw [Array.getElem?_toList, Array.getElem?_eq_some_iff] at hi
  obtain ⟨lt, rfl⟩ := hi
  obtain ⟨a, hb, ln⟩ := rep.chain i lt
  rw [HashTable.chain_eq_getElem lt] at ln
  exact ⟨a, hb, ln.weaken (Nat.zero_le _)⟩

/-- Fresh buckets represent an empty table above everything else. -/
lemma represents_allocateBuckets (g : Growing (Slot κ ν)) (b c d e : Nat) (pos : 1 ≤ n) :
    Represents g.size (LinkedTable.allocateBuckets ⟨g, b, c, 0, d, e⟩ n)
      ⟨HashTable.emptyBuckets n, 0, d, e⟩ := by
  have size : max n 1 = n := Nat.max_eq_left pos
  refine ⟨HashTable.counted_emptyBuckets n _ _, Nat.lt_succ_self _, ?_, fun i hi => ?_⟩
  · exact ⟨by simp [HashTable.numBuckets, HashTable.emptyBuckets, LinkedTable.allocateBuckets, size],
      rfl, rfl, rfl⟩
  · have lt : i < n := by
      simpa [HashTable.numBuckets, HashTable.emptyBuckets, size] using hi
    refine ⟨0, ?_, ?_⟩
    · simp [LinkedTable.allocateBuckets, Growing.get?_append, lt]
    · rw [HashTable.chain_emptyBuckets]
      exact .nil 0

/-- An empty table in an array represents the empty table. -/
theorem represents_empty (capacity : Nat) :
    Represents 0 (.empty capacity : LinkedTable κ ν) (.empty capacity) :=
  represents_allocateBuckets (.empty _) 0 0 0 0 Nat.right_le_or

variable [Inhabited ν] [EntryLayout κ ν]

/-- A table that was built above everything in `g`, which is still there. -/
structure Above (g : Growing (Slot κ ν)) (t : LinkedTable κ ν) (m : HashTable κ ν) : Prop where
  represents : Represents g.size t m
  keeps : ∀ x s, g.get? x = some s → t.slots.get? x = some s

namespace Above

/-- Storing a value has the same effect above everything in `g`, which is still there. -/
lemma store (ab : Above g t m) (k : κ) (v : ν) :
    ∃ t', t.store k v = .ok t' ∧ Above g t' (m.insert k v) := by
  obtain ⟨t', hs, rep, below⟩ := ab.represents.store k v
  refine ⟨t', hs, rep, fun x s hx => ?_⟩
  exact below x s (Growing.le_size_of_get? hx) (ab.keeps x s hx)

/-- The entries of an old chain are stored once more. -/
lemma storeChain (ab : Above g t m) (ln : Linked g 0 a es 0) (le : es.length ≤ fuel) :
    ∃ t', t.storeChain fuel a = .ok t' ∧
      Above g t' (es.foldl (fun m e => m.insert e.1 e.2) m) := by
  induction es generalizing t m a fuel with
  | nil =>
    obtain rfl := ln.eq_end
    refine ⟨t, ?_, ab⟩
    rw [LinkedTable.storeChain.eq_def, if_pos rfl]
  | cons e es ih =>
    cases ln with
    | @cons _ _ rest k v _ above entry tail =>
      obtain ⟨fuel, rfl⟩ := Nat.exists_eq_add_of_le' (Nat.le_trans (Nat.succ_pos _) le)
      obtain ⟨t', hs, ab'⟩ := ab.store k v
      obtain ⟨u, hu, ab''⟩ := ih ab' tail (Nat.le_of_succ_le_succ le)
      refine ⟨u, ?_, ab''⟩
      -- storing the entries before this one has not changed it
      rw [LinkedTable.storeChain, if_neg (Nat.ne_of_gt above),
        LinkedTable.entryAt_eq (ab.keeps _ _ entry)]
      simp only [hs, hu]

/-- The entries of the old chains are stored once more. -/
lemma storeChains (ab : Above g t m) (lr : LinkedRows g b rows)
    (le : ∀ es ∈ rows, es.length ≤ fuel) :
    ∃ t', t.storeChains fuel b rows.length = .ok t' ∧
      Above g t' (rows.flatten.foldl (fun m e => m.insert e.1 e.2) m) := by
  induction rows generalizing t m b with
  | nil => exact ⟨t, rfl, ab⟩
  | cons es rows ih =>
    obtain ⟨a, hb, ln⟩ := lr 0 es rfl
    obtain ⟨t', hs, ab'⟩ := ab.storeChain ln (le es (by simp))
    obtain ⟨u, hu, ab''⟩ := ih ab' lr.tail fun es mem => le es (List.mem_cons_of_mem _ mem)
    refine ⟨u, ?_, by rwa [List.flatten_cons, List.foldl_append]⟩
    have hb' : t.slots.get? b = some (.bucket a) := ab.keeps _ _ hb
    rw [List.length_cons, LinkedTable.storeChains, hb']
    simp only [hs, hu]

end Above

namespace Represents

/-- Rebuilding has the same effect in the array. -/
theorem rehash (rep : Represents base t m) (pos : 1 ≤ n) :
    ∃ t', t.rehash n = .ok t' ∧ Represents 0 t' (m.rehash n) := by
  have fresh : Above t.slots
      (LinkedTable.allocateBuckets ⟨t.slots, t.firstBucket, t.numBuckets, 0, t.numCollisions,
        t.numRehash + 1⟩ n)
      ⟨HashTable.emptyBuckets n, 0, m.numCollisions, m.numRehash + 1⟩ := by
    rw [← rep.numbers.collisions, ← rep.numbers.rehash]
    refine ⟨represents_allocateBuckets _ _ _ _ _ pos, fun x s hx => ?_⟩
    exact (Growing.get?_append_of_le (Growing.le_size_of_get? hx) _).trans hx
  have le : ∀ es ∈ m.buckets.toList, es.length ≤ t.numEntries := by
    intro es mem
    rw [rep.numbers.entries, ← rep.counted.length_entries]
    exact (List.sublist_flatten_of_mem mem).length_le
  obtain ⟨t', hs, ab⟩ := fresh.storeChains rep.linkedRows le
  refine ⟨t', ?_, ab.represents.weaken (Nat.zero_le _)⟩
  rw [← hs, Array.length_toList]
  exact congrArg _ rep.numbers.buckets

/-- A table that is more than half full is rebuilt in the array as well. -/
lemma grow (rep : Represents base t m) :
    ∃ t', t.grow = .ok t' ∧ Represents 0 t'
      (if m.numEntries > m.numBuckets / 2 then m.rehash (m.numBuckets * 2 + 1) else m) := by
  rw [LinkedTable.grow, rep.numbers.entries, rep.numbers.buckets]
  split
  · exact rep.rehash (Nat.le_add_left ..)
  · exact ⟨t, rfl, rep.weaken (Nat.zero_le _)⟩

/-- Storing a value and growing have the same effect in the array, and the same answer. -/
theorem put (rep : Represents base t m) (k : κ) (v : ν) :
    ∃ t', t.put k v = .ok ((m.putNew k v).1, t') ∧ Represents 0 t' (m.putNew k v).2 := by
  obtain ⟨t', hs, rep', -⟩ := rep.store k v
  obtain ⟨u, hg, rep''⟩ := rep'.grow
  refine ⟨u, ?_, rep''⟩
  rw [LinkedTable.put, hs]
  simp only [bind, Except.bind, hg, rep.numbers.entries, rep''.numbers.entries]
  rfl

end Represents
end TermHeap
