import Mathlib.Order.Bounds.Basic
import TermHeap.Proofs.HashTable.FiniteMap

/-!
# The load of a hash table

A table that is not rebuilt on demand grows only as its entries require. One growth always makes
room for the entry that was too much, since the number of buckets more than doubles, and no entry is
lost or counted twice on the way (`HashTable.Counted.numEntries_rehash`). So the buckets are never
more than half full, and how many there are depends on the number of keys alone
(`LinkedTable.run_load`).
-/

namespace TermHeap

/-- The number of buckets of a table for an expected number of them, once it grew `k` times. -/
def grownBuckets (capacity : Nat) : Nat → Nat
  | 0 => capacity ||| 1
  | k + 1 => 2 * grownBuckets capacity k + 1

variable {κ ν : Type} [DecidableEq κ] [HashKey κ] {k : κ} {v : ν} {capacity n : Nat}

namespace HashTable

variable {t : HashTable κ ν}

/-! ### Rebuilding -/

/-- Storing a value rebuilds nothing. -/
lemma numRehash_insert : (t.insert k v).numRehash = t.numRehash := rfl

/-- Storing values one after the other changes neither the number of buckets nor that of
rebuildings. -/
lemma foldl_insert_numbers (es : List (κ × ν)) (t : HashTable κ ν) :
    (es.foldl (fun t e => t.insert e.1 e.2) t).numBuckets = t.numBuckets ∧
      (es.foldl (fun t e => t.insert e.1 e.2) t).numRehash = t.numRehash := by
  induction es generalizing t with
  | nil => exact ⟨rfl, rfl⟩
  | cons e es ih =>
    obtain ⟨buckets, rehash⟩ := ih (t.insert e.1 e.2)
    exact ⟨buckets.trans numBuckets_insert, rehash.trans numRehash_insert⟩

/-- A table is rebuilt with the number of buckets that is asked for. -/
lemma numBuckets_rehash (t : HashTable κ ν) (pos : 1 ≤ n) : (t.rehash n).numBuckets = n := by
  rw [rehash, (foldl_insert_numbers _ _).1, numBuckets, emptyBuckets, Array.size_replicate,
    Nat.max_eq_left pos]

/-- Each rebuilding is counted. -/
lemma numRehash_rehash (t : HashTable κ ν) (n : Nat) :
    (t.rehash n).numRehash = t.numRehash + 1 := by
  rw [rehash, (foldl_insert_numbers _ _).2]

/-- Rebuilding a table counts its entries anew and comes to the same number. -/
lemma Counted.numEntries_rehash (ct : t.Counted) (n : Nat) :
    (t.rehash n).numEntries = t.numEntries := by
  rw [(counted_rehash t n).count, ct.count]
  congr 1
  ext k
  rw [(sound_rehash n).mem_keys, ct.sound.get?_rehash, ct.sound.mem_keys]

/-! ### Growing -/

/-- A table that is at most half full and would have been too full after any fewer growths. -/
structure Grown (capacity : Nat) (t : HashTable κ ν) : Prop where
  load : t.numEntries ≤ t.numBuckets / 2
  buckets : t.numBuckets = grownBuckets capacity t.numRehash
  least : ∀ i < t.numRehash, grownBuckets capacity i / 2 < t.numEntries

namespace Grown

omit [DecidableEq κ] [HashKey κ] in
/-- An empty table has not grown. -/
lemma empty (capacity : Nat) : Grown capacity (.empty capacity : HashTable κ ν) := by
  refine ⟨Nat.zero_le _, ?_, ?_⟩
  · have size : max (capacity ||| 1) 1 = capacity ||| 1 := Nat.max_eq_left Nat.right_le_or
    simp [numBuckets, HashTable.empty, emptyBuckets, size, grownBuckets]
  · intro i lt
    exact absurd lt (Nat.not_lt_zero i)

/-- A single growth is enough for one entry more. -/
lemma put (gr : Grown capacity t) (ct : t.Counted) (k : κ) (v : ν) :
    Grown capacity (t.put k v) := by
  have pos := ct.sound.pos
  have old := gr.load
  have more : t.numEntries ≤ (t.insert k v).numEntries ∧
      (t.insert k v).numEntries ≤ t.numEntries + 1 := by
    rw [numEntries_insert ct.sound]
    split <;> omega
  have least : ∀ i < t.numRehash, grownBuckets capacity i / 2 < (t.insert k v).numEntries :=
    fun i lt => Nat.lt_of_lt_of_le (gr.least i lt) more.1
  rw [HashTable.put]
  split
  · rename_i full
    -- `2 * n + 1` buckets have room for the one entry that `n` had no room for
    rw [numBuckets_insert] at full
    have size := numBuckets_rehash (t.insert k v) (n := t.numBuckets * 2 + 1) (Nat.le_add_left ..)
    have count := (ct.insert (k := k) (v := v)).numEntries_rehash (t.numBuckets * 2 + 1)
    have times := numRehash_rehash (t.insert k v) (t.numBuckets * 2 + 1)
    rw [numRehash_insert] at times
    refine ⟨?_, ?_, ?_⟩
    · rw [numBuckets_insert, size, count]
      omega
    · rw [numBuckets_insert, size, times, grownBuckets, ← gr.buckets, Nat.mul_comm]
    · intro i lt
      rw [numBuckets_insert] at lt ⊢
      rw [times] at lt
      rw [count]
      rcases Nat.lt_succ_iff_lt_or_eq.mp lt with lt | rfl
      · exact least i lt
      · exact gr.buckets ▸ full
  · rename_i room
    refine ⟨Nat.not_lt.mp room, ?_, least⟩
    rw [numBuckets_insert, numRehash_insert, gr.buckets]

omit [DecidableEq κ] [HashKey κ] in
/-- The number of growths is the least after which the entries find room. -/
lemma isLeast (gr : Grown capacity t) :
    IsLeast {i | t.numEntries ≤ grownBuckets capacity i / 2} t.numRehash := by
  refine ⟨?_, ?_⟩
  · show t.numEntries ≤ grownBuckets capacity t.numRehash / 2
    exact gr.buckets ▸ gr.load
  · intro i room
    by_contra lt
    exact Nat.not_lt.mpr room (gr.least i (Nat.not_le.mp lt))

end Grown
end HashTable

/-! ### Tables in one array -/

namespace LinkedTable

variable [Inhabited ν] [EntryLayout κ ν] {t t' : LinkedTable κ ν} {op : TableOp κ ν}
  {ops : List (TableOp κ ν)} {answer : TableAnswer ν} {answers : List (TableAnswer ν)}

/-- The table represents one that grew only as its entries required. -/
def Grown (capacity : Nat) (t : LinkedTable κ ν) : Prop :=
  ∃ m, Represents 0 t m ∧ HashTable.Grown capacity m

namespace Grown

omit [Inhabited ν] [EntryLayout κ ν] in
/-- An empty table in one array has not grown. -/
lemma empty (capacity : Nat) : Grown capacity (.empty capacity : LinkedTable κ ν) :=
  ⟨.empty capacity, represents_empty capacity, .empty capacity⟩

/-- Operations other than rebuilding on demand succeed, and the table grows only as its entries
require. -/
lemma step (gr : Grown capacity t) (no : ∀ n, op ≠ .rehash n) :
    ∃ answer t', t.step op = .ok (answer, t') ∧ Grown capacity t' := by
  obtain ⟨m, rep, gr⟩ := gr
  cases op with
  | put k v =>
    obtain ⟨t', hp, rep'⟩ := rep.put k v
    refine ⟨.added (m.putNew k v).1, t', ?_, _, rep', gr.put rep.counted k v⟩
    rw [LinkedTable.step, hp]
    rfl
  | get k =>
    refine ⟨.value (m.get? k), t, ?_, m, rep, gr⟩
    rw [LinkedTable.step, rep.get?_eq]
    rfl
  | contains k =>
    refine ⟨.present (m.get? k).isSome, t, ?_, m, rep, gr⟩
    rw [LinkedTable.step, rep.contains_eq]
    rfl
  | rehash n => exact absurd rfl (no n)

/-- Operations among which no rebuilding is asked for succeed in turn, and the table grows only as
its entries require. -/
lemma run (gr : Grown capacity t) (no : ∀ n, .rehash n ∉ ops) :
    ∃ answers t', t.run ops = .ok (answers, t') ∧ Grown capacity t' := by
  induction ops generalizing t with
  | nil => exact ⟨[], t, rfl, gr⟩
  | cons op ops ih =>
    have no' : ∀ n, op ≠ .rehash n := fun n eq => no n (eq ▸ List.mem_cons_self)
    obtain ⟨answer, t', hs, gr'⟩ := gr.step no'
    obtain ⟨answers, u, hu, gr''⟩ := ih gr' fun n mem => no n (List.mem_cons_of_mem _ mem)
    refine ⟨answer :: answers, u, ?_, gr''⟩
    rw [LinkedTable.run, hs]
    simp only [bind, Except.bind, hu]
    rfl

omit [Inhabited ν] [EntryLayout κ ν] in
/-- What is known of the numbers of such a table. -/
lemma load (gr : Grown capacity t) :
    t.numEntries ≤ t.numBuckets / 2 ∧ t.numBuckets = grownBuckets capacity t.numRehash ∧
      IsLeast {k | t.numEntries ≤ grownBuckets capacity k / 2} t.numRehash := by
  obtain ⟨m, rep, gr⟩ := gr
  rw [rep.numbers.entries, rep.numbers.buckets, rep.numbers.rehash]
  exact ⟨gr.load, gr.buckets, gr.isLeast⟩

end Grown

/-- What an empty table becomes by operations among which it is not rebuilt on demand. -/
lemma exists_run (capacity : Nat) (no : ∀ n, TableOp.rehash n ∉ ops) :
    ∃ answers t, (empty capacity : LinkedTable κ ν).run ops = .ok (answers, t) ∧
      Grown capacity t ∧ t.numEntries = ((puts ops).map Prod.fst).toFinset.card := by
  obtain ⟨answers, t, hr, gr⟩ := (Grown.empty capacity).run no
  obtain ⟨t', hr', sv⟩ := (Serves.empty capacity).run fun n mem => absurd mem (no n)
  obtain ⟨-, rfl⟩ := Prod.mk.inj (Except.ok.inj (hr.symm.trans hr'))
  exact ⟨answers, t, hr, gr, sv.numEntries_eq⟩

/-- **The load stays bounded.** However keys are put into an empty table of any initial capacity,
and whatever is looked up in between, the table counts each key once and is at most half full. It
has grown as many times as it takes for this, each time to one more than twice the buckets. So after
any other puts of as many keys it has as many buckets, and was rebuilt as many times. -/
theorem run_load (capacity : Nat) (ops : List (TableOp κ ν)) (no : ∀ n, .rehash n ∉ ops) :
    ∃ answers t, (empty capacity : LinkedTable κ ν).run ops = .ok (answers, t) ∧
      t.numEntries = ((puts ops).map Prod.fst).toFinset.card ∧
      t.numEntries ≤ t.numBuckets / 2 ∧
      t.numBuckets = grownBuckets capacity t.numRehash ∧
      IsLeast {k | t.numEntries ≤ grownBuckets capacity k / 2} t.numRehash ∧
      ∀ ops' : List (TableOp κ ν), (∀ n, .rehash n ∉ ops') →
        ((puts ops').map Prod.fst).toFinset.card = t.numEntries →
        ∃ answers' t', (empty capacity : LinkedTable κ ν).run ops' = .ok (answers', t') ∧
          t'.numBuckets = t.numBuckets ∧ t'.numRehash = t.numRehash := by
  obtain ⟨answers, t, hr, gr, count⟩ := exists_run capacity no
  obtain ⟨half, buckets, least⟩ := gr.load
  refine ⟨answers, t, hr, count, half, buckets, least, ?_⟩
  intro ops' no' same
  obtain ⟨answers', t', hr', gr', count'⟩ := exists_run capacity no'
  obtain ⟨_, buckets', least'⟩ := gr'.load
  rw [count', same] at least'
  have times : t'.numRehash = t.numRehash := least'.unique least
  exact ⟨answers', t', hr', by rw [buckets', buckets, times], times⟩

/-- A single bucket cannot hold an entry, so the first put makes the table grow, and so does the
second new key. Two other keys lead to the same numbers. -/
theorem run_load_oneBucket :
    ∃ answers t, (empty 0 : LinkedTable Int32 Int32).run
        [.put 1 10, .contains 3, .put 1 20, .put (-5) 7] = .ok (answers, t) ∧
      t.numEntries = 2 ∧ t.numBuckets = 7 ∧ t.numRehash = 2 ∧
      ∃ answers' t', (empty 0 : LinkedTable Int32 Int32).run [.put 9 1, .get 9, .put 8 1]
          = .ok (answers', t') ∧ t'.numBuckets = 7 ∧ t'.numRehash = 2 := by
  obtain ⟨answers, t, hr, count, _, buckets, least, same⟩ := run_load (κ := Int32) (ν := Int32) 0
    [.put 1 10, .contains 3, .put 1 20, .put (-5) 7] (by simp)
  have two : t.numEntries = 2 := count
  have times : t.numRehash = 2 := by
    rw [two] at least
    refine least.unique ⟨by decide, ?_⟩
    intro k room
    by_contra lt
    have few : ∀ k < 2, ¬ 2 ≤ grownBuckets 0 k / 2 := by decide
    exact few k (Nat.not_le.mp lt) room
  have seven : t.numBuckets = 7 := by rw [buckets, times]; rfl
  obtain ⟨answers', t', hr', buckets', times'⟩ :=
    same [.put 9 1, .get 9, .put 8 1] (by simp) (by rw [two]; decide)
  exact ⟨answers, t, hr, two, seven, times, answers', t', hr', buckets'.trans seven,
    times'.trans times⟩

end LinkedTable
end TermHeap
