import Mathlib.Data.Finset.Card
import Mathlib.Data.List.Nodup
import TermHeap.Proofs.HashTable.Lookup

/-!
# Counting what was stored

No key is stored twice in a sound table (`Sound.nodup_keys`), so the entries are counted by their
keys. A table is *counted* if the number that it keeps is that of its entries. Storing a value and
rebuilding keep this (`Counted.insert`, `counted_rehash`, `Counted.put`), and a value was stored
under a new key exactly if the number grew (`Counted.putNew_fst`).
-/

namespace TermHeap.HashTable

variable {κ ν : Type} [DecidableEq κ] [HashKey κ] {t : HashTable κ ν} {k k' : κ} {v : ν}

/-- The keys of a table. -/
def keys (t : HashTable κ ν) : Finset κ := (t.entries.map Prod.fst).toFinset

/-- The keys are those for which a value is found. -/
lemma Sound.mem_keys (sd : t.Sound) : k ∈ t.keys ↔ (t.get? k).isSome = true := by
  rw [keys, List.mem_toFinset, Option.isSome_iff_exists]
  constructor
  · intro mem
    obtain ⟨e, he, rfl⟩ := List.mem_map.mp mem
    exact ⟨e.2, sd.get?_eq_some_iff.mpr he⟩
  · rintro ⟨v, hg⟩
    exact List.mem_map.mpr ⟨(k, v), sd.get?_eq_some_iff.mp hg, rfl⟩

omit [DecidableEq κ] in
/-- No key is stored twice. -/
theorem Sound.nodup_keys (sd : t.Sound) : (t.entries.map Prod.fst).Nodup := by
  rw [entries, List.map_flatten, List.nodup_flatten]
  refine ⟨?_, ?_⟩
  · intro ks mem
    obtain ⟨es, hes, rfl⟩ := List.mem_map.mp mem
    obtain ⟨i, hi, rfl⟩ := List.mem_iff_getElem.mp hes
    have hi' : i < t.buckets.size := by simpa using hi
    rw [Array.getElem_toList, ← chain_eq_getElem hi']
    exact sd.nodup i
  · -- a key is in the chain of its own bucket only
    rw [List.pairwise_iff_getElem]
    intro i j hi hj lt
    have hi' : i < t.buckets.size := by simpa using hi
    have hj' : j < t.buckets.size := by simpa using hj
    rw [List.getElem_map, List.getElem_map, Array.getElem_toList, Array.getElem_toList,
      ← chain_eq_getElem hi', ← chain_eq_getElem hj']
    intro k mi mj
    exact Nat.ne_of_lt lt ((sd.home mi).symm.trans (sd.home mj))

/-- There are as many keys as entries. -/
lemma Sound.card_keys (sd : t.Sound) : t.keys.card = t.entries.length := by
  rw [keys, List.toFinset_card_of_nodup sd.nodup_keys, List.length_map]

/-- The number that the table keeps is that of its entries. -/
structure Counted (t : HashTable κ ν) : Prop where
  sound : t.Sound
  count : t.numEntries = t.keys.card

/-- The number of entries is the one that is kept. -/
lemma Counted.length_entries (ct : t.Counted) : t.entries.length = t.numEntries := by
  rw [ct.count, ct.sound.card_keys]

/-- No chain is longer than the number of entries. -/
lemma Counted.length_chain_le (ct : t.Counted) (i : Nat) : (t.chain i).length ≤ t.numEntries := by
  rw [← ct.length_entries, entries]
  by_cases hi : i < t.buckets.size
  · rw [chain_eq_getElem hi]
    exact (List.sublist_flatten_of_mem (by simp)).length_le
  · rw [chain_eq_nil (Nat.not_lt.mp hi)]
    exact Nat.zero_le _

omit [DecidableEq κ] [HashKey κ] in
/-- There are no entries in empty buckets. -/
lemma entries_emptyBuckets (n a b c : Nat) :
    (⟨emptyBuckets n, a, b, c⟩ : HashTable κ ν).entries = [] := by
  simp [entries, emptyBuckets]

/-- Empty buckets are counted right. -/
lemma counted_emptyBuckets (n b c : Nat) :
    Counted (⟨emptyBuckets n, 0, b, c⟩ : HashTable κ ν) := by
  refine ⟨sound_emptyBuckets _ _ _ _, ?_⟩
  rw [keys, entries_emptyBuckets]
  rfl

/-- Storing a value adds its key. -/
lemma keys_insert (sd : t.Sound) : (t.insert k v).keys = Insert.insert k t.keys := by
  ext k'
  rw [sd.insert.mem_keys, get?_insert sd.pos, Finset.mem_insert, sd.mem_keys]
  by_cases hk : k' = k
  · simp [hk]
  · simp [hk]

/-- A value that replaces one of the same key changes no number. -/
lemma insert_numbers_of_mem (mem : k ∈ (t.chain (t.bucketOf k)).map Prod.fst) :
    (t.insert k v).numEntries = t.numEntries ∧
      (t.insert k v).numCollisions = t.numCollisions := by
  have any : (t.chain (t.bucketOf k)).any (·.1 = k) = true := by simpa using mem
  simp [insert, any]

/-- A value under a new key is one more entry, and one more collision if its bucket was in use. -/
lemma insert_numbers_of_notMem (no : k ∉ (t.chain (t.bucketOf k)).map Prod.fst) :
    (t.insert k v).numEntries = t.numEntries + 1 ∧ (t.insert k v).numCollisions
      = if t.chain (t.bucketOf k) = [] then t.numCollisions else t.numCollisions + 1 := by
  have any : (t.chain (t.bucketOf k)).any (·.1 = k) = false := by
    simpa [Bool.eq_false_iff] using no
  simp [insert, any]

/-- A key is in the table exactly if it is in the chain of its bucket. -/
lemma Sound.mem_keys_iff (sd : t.Sound) :
    k ∈ t.keys ↔ k ∈ (t.chain (t.bucketOf k)).map Prod.fst := by
  rw [sd.mem_keys, get?_eq_valueIn, valueIn, Option.isSome_map, List.find?_isSome]
  simp

/-- The number of entries grows exactly with a new key. -/
lemma numEntries_insert (sd : t.Sound) :
    (t.insert k v).numEntries = if k ∈ t.keys then t.numEntries else t.numEntries + 1 := by
  split
  · rename_i mem
    exact (insert_numbers_of_mem (sd.mem_keys_iff.mp mem)).1
  · rename_i no
    exact (insert_numbers_of_notMem fun mem => no (sd.mem_keys_iff.mpr mem)).1

/-- Storing a value keeps the count right. -/
lemma Counted.insert (ct : t.Counted) : (t.insert k v).Counted := by
  refine ⟨ct.sound.insert, ?_⟩
  rw [numEntries_insert ct.sound, keys_insert ct.sound, Finset.card_insert_eq_ite, ct.count]

/-- Storing one value after the other keeps the count right. -/
lemma Counted.foldl_insert (ct : t.Counted) (es : List (κ × ν)) :
    (es.foldl (fun t e => t.insert e.1 e.2) t).Counted := by
  induction es generalizing t with
  | nil => exact ct
  | cons e es ih => exact ih ct.insert

/-- A table that was rebuilt is counted right. -/
lemma counted_rehash (t : HashTable κ ν) (n : Nat) : (t.rehash n).Counted :=
  (counted_emptyBuckets n _ _).foldl_insert _

/-- A put keeps the count right, even if the table is rebuilt before it. -/
lemma Counted.put (ct : t.Counted) : (t.put k v).Counted := by
  rw [HashTable.put]
  split
  · exact counted_rehash _ _
  · exact ct.insert

/-- A put adds its key. -/
lemma keys_put (sd : t.Sound) : (t.put k v).keys = Insert.insert k t.keys := by
  ext k'
  rw [sd.put.mem_keys, sd.get?_put, Finset.mem_insert, sd.mem_keys]
  by_cases hk : k' = k
  · simp [hk]
  · simp [hk]

/-- A key is new exactly if the number of entries grew. -/
theorem Counted.putNew_fst (ct : t.Counted) : (t.putNew k v).1 = (t.get? k).isNone := by
  have mem := ct.sound.mem_keys (k := k)
  rw [putNew, ct.count, ct.put.count, keys_put ct.sound, Finset.card_insert_eq_ite]
  cases hg : t.get? k with
  | none => simp_all
  | some v => simp_all

end TermHeap.HashTable
