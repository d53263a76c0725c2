import Mathlib.Data.List.Nodup
import TermHeap.HashTable.Basic

/-!
# Looking up what was stored

A table is *sound* if every entry is in the bucket of its key and no bucket holds a key twice. Then
the value found for a key is the one of its only entry (`Sound.get?_eq_some_iff`), rebuilding the
table changes no lookup (`Sound.get?_rehash`), and storing a value changes the lookup of its key
only (`Sound.get?_put`).
-/

namespace TermHeap.HashTable

variable {κ ν : Type} [DecidableEq κ] [HashKey κ] {t : HashTable κ ν} {k k' : κ} {v v' : ν}
  {es : List (κ × ν)} {i : Nat}

/-! ### Chains -/

/-- The value found first for a key in a chain. -/
def valueIn (es : List (κ × ν)) (k : κ) : Option ν := (es.find? (·.1 = k)).map (·.2)

section

omit [HashKey κ]

@[simp] lemma valueIn_nil : valueIn ([] : List (κ × ν)) k = none := rfl

@[simp] lemma valueIn_cons (e : κ × ν) :
    valueIn (e :: es) k = if e.1 = k then some e.2 else valueIn es k := by
  by_cases he : e.1 = k <;> simp [valueIn, he]

/-- A value that is found is one of the chain. -/
lemma mem_of_valueIn (hv : valueIn es k = some v) : (k, v) ∈ es := by
  obtain ⟨e, he, rfl⟩ := Option.map_eq_some_iff.mp hv
  obtain rfl : e.1 = k := by simpa using List.find?_some he
  exact List.mem_of_find?_eq_some he

/-- No value is found exactly if the key is not in the chain. -/
lemma valueIn_eq_none_iff : valueIn es k = none ↔ ∀ e ∈ es, e.1 ≠ k := by
  rw [valueIn, Option.map_eq_none_iff, List.find?_eq_none]
  simp

/-- In a chain without repeated keys every value is found. -/
lemma valueIn_of_mem (nd : (es.map Prod.fst).Nodup) (mem : (k, v) ∈ es) :
    valueIn es k = some v := by
  induction es with
  | nil => simp at mem
  | cons e es ih =>
    rw [List.map_cons, List.nodup_cons] at nd
    rw [valueIn_cons]
    rcases List.mem_cons.mp mem with rfl | mem
    · rw [if_pos rfl]
    · have ne : e.1 ≠ k := by
        rintro rfl
        exact nd.1 (List.mem_map.mpr ⟨(e.1, v), mem, rfl⟩)
      rw [if_neg ne]
      exact ih nd.2 mem

/-- The first of two chains is searched first. -/
lemma valueIn_append (es fs : List (κ × ν)) (k : κ) :
    valueIn (es ++ fs) k = (valueIn es k).or (valueIn fs k) := by
  rw [valueIn, List.find?_append, Option.map_or]
  rfl

/-- Replacing the value of a key changes what is found for it, if anything is, and nothing else. -/
lemma valueIn_map (es : List (κ × ν)) (k k' : κ) (v : ν) :
    valueIn (es.map fun e => if e.1 = k then (k, v) else e) k'
      = if k' = k then (valueIn es k).map fun _ => v else valueIn es k' := by
  induction es with
  | nil => simp
  | cons e es ih =>
    rw [List.map_cons, valueIn_cons, valueIn_cons, valueIn_cons, ih]
    by_cases he : e.1 = k
    · by_cases hk : k' = k
      · simp [he, hk]
      · simp [he, hk, Ne.symm hk]
    · by_cases hk : k' = k
      · simp [he, hk]
      · simp [he, hk]

/-- Updating a chain changes what is found for the key only. -/
lemma valueIn_update (es : List (κ × ν)) (k k' : κ) (v : ν) :
    valueIn (update k v es) k' = if k' = k then some v else valueIn es k' := by
  rw [update]
  split
  · rename_i present
    obtain ⟨e, mem, he⟩ := List.any_eq_true.mp present
    obtain ⟨w, hw⟩ : ∃ w, valueIn es k = some w := by
      apply Option.isSome_iff_exists.mp
      rw [valueIn, Option.isSome_map, List.find?_isSome]
      exact ⟨e, mem, he⟩
    rw [valueIn_map, hw, Option.map_some]
  · rename_i absent
    have no : ∀ e ∈ es, e.1 ≠ k := by
      intro e mem he
      exact absent (List.any_eq_true.mpr ⟨e, mem, by simpa using he⟩)
    rw [valueIn_append, valueIn_cons, valueIn_nil]
    by_cases hk : k' = k
    · subst hk
      rw [valueIn_eq_none_iff.mpr no]
      simp
    · simp [hk, Ne.symm hk]

/-- A new key goes to the end of the chain. -/
lemma update_of_notMem (no : k ∉ es.map Prod.fst) : update k v es = es ++ [(k, v)] := by
  rw [update, if_neg]
  intro any
  obtain ⟨e, mem, he⟩ := List.any_eq_true.mp any
  exact no (List.mem_map.mpr ⟨e, mem, by simpa using he⟩)

/-- A key of the chain keeps its place. -/
lemma update_append_cons {fs gs : List (κ × ν)} (nd : ((fs ++ (k, v') :: gs).map Prod.fst).Nodup) :
    update k v (fs ++ (k, v') :: gs) = fs ++ (k, v) :: gs := by
  have other : ∀ hs : List (κ × ν), k ∉ hs.map Prod.fst →
      (hs.map fun e => if e.1 = k then (k, v) else e) = hs := by
    intro hs no
    refine (List.map_congr_left fun e mem => if_neg ?_).trans (List.map_id hs)
    rintro rfl
    exact no (List.mem_map.mpr ⟨e, mem, rfl⟩)
  rw [List.map_append, List.map_cons, List.nodup_middle, List.nodup_cons, List.mem_append,
    not_or] at nd
  rw [update, if_pos (by simp), List.map_append, List.map_cons, other fs nd.1.1, other gs nd.1.2,
    if_pos rfl]

/-- Updating a chain keeps its keys and adds at most the one updated. -/
lemma keys_update (es : List (κ × ν)) (k : κ) (v : ν) :
    (update k v es).map Prod.fst
      = if k ∈ es.map Prod.fst then es.map Prod.fst else es.map Prod.fst ++ [k] := by
  rw [update]
  have any_iff : es.any (fun e => e.1 = k) = true ↔ k ∈ es.map Prod.fst := by
    simp [List.any_eq_true]
  by_cases present : k ∈ es.map Prod.fst
  · rw [if_pos (any_iff.mpr present), if_pos present, List.map_map]
    apply List.map_congr_left
    intro e _
    by_cases he : e.1 = k <;> simp [he]
  · rw [if_neg fun h => present (any_iff.mp h), if_neg present, List.map_append]
    rfl

end

/-! ### Tables -/

/-- Every entry is in the bucket of its key, and no bucket holds a key twice. -/
structure Sound (t : HashTable κ ν) : Prop where
  pos : 0 < t.numBuckets
  home : ∀ {i k}, k ∈ (t.chain i).map Prod.fst → t.bucketOf k = i
  nodup : ∀ i, ((t.chain i).map Prod.fst).Nodup

/-- A lookup searches the chain of its bucket. -/
lemma get?_eq_valueIn (t : HashTable κ ν) (k : κ) : t.get? k = valueIn (t.chain (t.bucketOf k)) k :=
  rfl

omit [DecidableEq κ] [HashKey κ] in
/-- The chains of empty buckets are empty. -/
lemma chain_emptyBuckets (n a b c i : Nat) :
    chain (⟨emptyBuckets n, a, b, c⟩ : HashTable κ ν) i = [] := by
  simp only [chain, emptyBuckets, Array.getD_eq_getD_getElem?, Array.getElem?_replicate]
  split <;> rfl

/-- Nothing is found in an empty table. -/
lemma get?_empty (capacity : Nat) (k : κ) : (empty capacity : HashTable κ ν).get? k = none := by
  rw [get?_eq_valueIn, empty, chain_emptyBuckets, valueIn_nil]

omit [DecidableEq κ] in
/-- Empty buckets are sound. -/
lemma sound_emptyBuckets (n a b c : Nat) :
    Sound (⟨emptyBuckets n, a, b, c⟩ : HashTable κ ν) := by
  refine ⟨?_, ?_, ?_⟩
  · rw [numBuckets, emptyBuckets, Array.size_replicate]
    omega
  · intro i k mem
    simp [chain_emptyBuckets] at mem
  · intro i
    simp [chain_emptyBuckets]

omit [DecidableEq κ] in
/-- The bucket of a key is one of the table. -/
lemma bucketOf_lt (pos : 0 < t.numBuckets) (k : κ) : t.bucketOf k < t.numBuckets :=
  Nat.mod_lt _ pos

@[simp] lemma numBuckets_insert : (t.insert k v).numBuckets = t.numBuckets := by
  simp [insert, numBuckets]

@[simp] lemma bucketOf_insert : (t.insert k v).bucketOf k' = t.bucketOf k' := by
  rw [bucketOf, bucketOf, numBuckets_insert]

/-- Storing a value updates the chain of its bucket only. -/
lemma chain_insert (pos : 0 < t.numBuckets) (i : Nat) :
    (t.insert k v).chain i = if i = t.bucketOf k then update k v (t.chain i) else t.chain i := by
  have lt : t.bucketOf k < t.buckets.size := bucketOf_lt pos k
  simp only [chain, insert, Array.getD_eq_getD_getElem?, Array.getElem?_modify]
  by_cases hi : i = t.bucketOf k
  · subst hi
    simp [lt]
  · simp [hi, Ne.symm hi]

/-- Storing a value keeps a table sound. -/
lemma Sound.insert (sd : t.Sound) : (t.insert k v).Sound := by
  refine ⟨by simpa using sd.pos, ?_, ?_⟩
  · intro i k' mem
    rw [chain_insert sd.pos] at mem
    rw [bucketOf_insert]
    split at mem
    · rename_i hi
      rw [keys_update] at mem
      split at mem
      · exact sd.home mem
      · rcases List.mem_append.mp mem with mem | mem
        · exact sd.home mem
        · rw [List.mem_singleton.mp mem, hi]
    · exact sd.home mem
  · intro i
    rw [chain_insert sd.pos]
    split
    · rw [keys_update]
      split
      · exact sd.nodup i
      · rename_i absent
        rw [List.nodup_append]
        refine ⟨sd.nodup i, by simp, ?_⟩
        rintro a mem b hb rfl
        rw [List.mem_singleton.mp hb] at mem
        exact absent mem
    · exact sd.nodup i

/-- Storing a value changes what is found for its key only. -/
lemma get?_insert (pos : 0 < t.numBuckets) :
    (t.insert k v).get? k' = if k' = k then some v else t.get? k' := by
  rw [get?_eq_valueIn, bucketOf_insert, chain_insert pos]
  split
  · rw [valueIn_update, get?_eq_valueIn]
  · rename_i ne
    have hk : k' ≠ k := by
      rintro rfl
      exact ne rfl
    rw [if_neg hk, get?_eq_valueIn]

/-- Storing the entries of a list one after the other: the last entry of a key counts. -/
lemma get?_foldl_insert (es : List (κ × ν)) (pos : 0 < t.numBuckets) :
    (es.foldl (fun t e => t.insert e.1 e.2) t).get? k = (valueIn es.reverse k).or (t.get? k) := by
  -- the last entry of a key is the first one in the reversed list
  induction es generalizing t with
  | nil => simp
  | cons e es ih =>
    rw [List.foldl_cons, ih (by simpa using pos), List.reverse_cons, valueIn_append,
      get?_insert pos, Option.or_assoc]
    congr 1
    rw [valueIn_cons, valueIn_nil]
    by_cases he : e.1 = k
    · simp [he]
    · simp [he, Ne.symm he]

/-- Storing values one after the other keeps a table sound. -/
lemma Sound.foldl_insert (sd : t.Sound) (es : List (κ × ν)) :
    (es.foldl (fun t e => t.insert e.1 e.2) t).Sound := by
  induction es generalizing t with
  | nil => exact sd
  | cons e es ih => exact ih sd.insert

omit [DecidableEq κ] [HashKey κ] in
/-- The chain of a bucket is what the bucket holds. -/
lemma chain_eq_getElem (hi : i < t.buckets.size) : t.chain i = t.buckets[i] := by
  simp [chain, Array.getD_eq_getD_getElem?, hi]

omit [DecidableEq κ] [HashKey κ] in
/-- Where there is no bucket, there is no chain. -/
lemma chain_eq_nil (hi : t.buckets.size ≤ i) : t.chain i = [] := by
  simp [chain, Array.getD_eq_getD_getElem?, Nat.not_lt.mpr hi]

omit [DecidableEq κ] [HashKey κ] in
/-- The entries of a table are those of its chains. -/
lemma mem_entries {e : κ × ν} : e ∈ t.entries ↔ ∃ i, e ∈ t.chain i := by
  rw [entries, List.mem_flatten]
  constructor
  · rintro ⟨es, mem, he⟩
    obtain ⟨i, hi, rfl⟩ := List.mem_iff_getElem.mp mem
    have hi' : i < t.buckets.size := by simpa using hi
    exact ⟨i, by rwa [chain_eq_getElem hi']⟩
  · rintro ⟨i, he⟩
    by_cases hi : i < t.buckets.size
    · exact ⟨t.buckets[i], by simp, by rwa [← chain_eq_getElem hi]⟩
    · rw [chain_eq_nil (Nat.not_lt.mp hi)] at he
      simp at he

/-- The value found for a key is that of its entry. -/
theorem Sound.get?_eq_some_iff (sd : t.Sound) : t.get? k = some v ↔ (k, v) ∈ t.entries := by
  rw [mem_entries, get?_eq_valueIn]
  constructor
  · intro hv
    exact ⟨_, mem_of_valueIn hv⟩
  · rintro ⟨i, mem⟩
    have hi : t.bucketOf k = i := sd.home (List.mem_map.mpr ⟨(k, v), mem, rfl⟩)
    subst hi
    exact valueIn_of_mem (sd.nodup _) mem

/-- A table that was rebuilt is sound. -/
lemma sound_rehash (n : Nat) : (t.rehash n).Sound :=
  (sound_emptyBuckets n _ _ _).foldl_insert _

/-- Rebuilding a table changes no lookup. -/
theorem Sound.get?_rehash (sd : t.Sound) (n : Nat) : (t.rehash n).get? k = t.get? k := by
  have none : (⟨emptyBuckets n, 0, t.numCollisions, t.numRehash + 1⟩ : HashTable κ ν).get? k
      = none := by
    rw [get?_eq_valueIn, chain_emptyBuckets, valueIn_nil]
  rw [HashTable.rehash, get?_foldl_insert _ (sound_emptyBuckets n _ _ _).pos, none, Option.or_none]
  -- a key has one entry at most, so it makes no difference which of its entries comes last
  cases hv : valueIn t.entries.reverse k with
  | some v =>
    have mem := List.mem_reverse.mp (mem_of_valueIn hv)
    exact (sd.get?_eq_some_iff.mpr mem).symm
  | none =>
    cases hg : t.get? k with
    | none => rfl
    | some v =>
      have mem := List.mem_reverse.mpr (sd.get?_eq_some_iff.mp hg)
      exact absurd rfl (valueIn_eq_none_iff.mp hv _ mem)

/-- A put keeps a table sound, whether or not it grows. -/
lemma Sound.put (sd : t.Sound) : (t.put k v).Sound := by
  rw [HashTable.put]
  split
  · exact sound_rehash _
  · exact sd.insert

/-- Storing a value changes the lookup of its key only. -/
theorem Sound.get?_put (sd : t.Sound) :
    (t.put k v).get? k' = if k' = k then some v else t.get? k' := by
  rw [HashTable.put]
  split
  · rw [sd.insert.get?_rehash, get?_insert sd.pos]
  · rw [get?_insert sd.pos]

end TermHeap.HashTable
