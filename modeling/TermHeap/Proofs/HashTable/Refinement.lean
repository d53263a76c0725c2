import TermHeap.Proofs.HashTable.Chains
import TermHeap.Proofs.HashTable.Counting

/-!
# A table in one array is a table of lists

A table that lies in one array *represents* a table of lists if its buckets lead to chains with the
same entries in the same order, and all its numbers are the same (`Represents`). Slots up to a
`base` are not part of it, so old chains can be read there while new ones are built.

No key is in two chains, hence writing to the entry of a key, or behind the last entry of its
chain, leaves the other chains alone (`Writes.represents`). Every operation that succeeds on the
table of lists therefore succeeds in the array, with the same answer, and what it leaves there
represents what the other leaves (`Represents.get?_eq`, `Represents.store`, `Represents.rehash`,
`Represents.put`, `Represents.entries_eq`).
-/

namespace TermHeap

variable {κ ν : Type} [DecidableEq κ] [HashKey κ] {t t' : LinkedTable κ ν} {m m' : HashTable κ ν}
  {base a b c i : Nat} {k k' : κ} {v w : ν} {es fs gs : List (κ × ν)}

/-! ### Representation -/

/-- The numbers that are kept for two tables are the same. -/
structure SameNumbers (t : LinkedTable κ ν) (m : HashTable κ ν) : Prop where
  buckets : t.numBuckets = m.numBuckets
  entries : t.numEntries = m.numEntries
  collisions : t.numCollisions = m.numCollisions
  rehash : t.numRehash = m.numRehash

/-- The buckets of the first table lead to the chains of the second. All of them lie above
`base`. -/
structure Represents (base : Nat) (t : LinkedTable κ ν) (m : HashTable κ ν) : Prop where
  counted : m.Counted
  above : base < t.firstBucket
  numbers : SameNumbers t m
  chain : ∀ i < m.numBuckets, ∃ a, t.slots.get? (t.firstBucket + i) = some (.bucket a) ∧
    Linked t.slots base a (m.chain i) 0

/-- Only the chain of `k` was written to: its bucket, its entries, and slots that were not there
before. In it, the value of `k` is `v` now. -/
structure Writes (base : Nat) (t : LinkedTable κ ν) (m : HashTable κ ν) (k : κ) (v : ν)
    (t' : LinkedTable κ ν) : Prop where
  first : t'.firstBucket = t.firstBucket
  numbers : SameNumbers t' (m.insert k v)
  others : ∀ x s, t.slots.get? x = some s →
    (base < x → x ≠ t.firstBucket + m.bucketOf k ∧
      ∀ e, s = .entry e → m.bucketOf e.key ≠ m.bucketOf k) →
    t'.slots.get? x = some s
  chain : ∃ a, t'.slots.get? (t.firstBucket + m.bucketOf k) = some (.bucket a) ∧
    Linked t'.slots base a (HashTable.update k v (m.chain (m.bucketOf k))) 0

/-- What was written to the chain of a key is in no other chain. -/
lemma Writes.represents (wr : Writes base t m k v t') (rep : Represents base t m) :
    Represents base t' (m.insert k v) := by
  refine ⟨rep.counted.insert, wr.first ▸ rep.above, wr.numbers, ?_⟩
  intro i hi
  have pos := rep.counted.sound.pos
  rw [HashTable.numBuckets_insert] at hi
  rw [HashTable.chain_insert pos, wr.first]
  by_cases eq : i = m.bucketOf k
  · subst eq
    rw [if_pos rfl]
    exact wr.chain
  · rw [if_neg eq]
    obtain ⟨a, hb, ln⟩ := rep.chain i hi
    refine ⟨a, wr.others _ _ hb fun _ => ⟨by omega, by simp⟩, ?_⟩
    -- the keys of the chain of another bucket are not at home in this one
    refine ln.frame fun x e _ he mem => wr.others x _ he fun _ => ⟨?_, ?_⟩
    · rintro rfl
      obtain ⟨_, hb', _⟩ := rep.chain _ (HashTable.bucketOf_lt pos k)
      simp [hb'] at he
    · rintro e' eq'
      cases eq'
      rw [rep.counted.sound.home mem]
      exact eq

/-- What lies below a table is not written to. -/
lemma Writes.below (wr : Writes base t m k v t') {x : Nat} {s : Slot κ ν} (le : x ≤ base)
    (hs : t.slots.get? x = some s) : t'.slots.get? x = some s :=
  wr.others x s hs fun lt => absurd le (Nat.not_le.mpr lt)

/-! ### Finding -/

namespace HashTable

/-- A key is in the chain of its bucket or not. -/
lemma chain_cases (m : HashTable κ ν) (k : κ) :
    (∃ fs w gs, m.chain (m.bucketOf k) = fs ++ (k, w) :: gs ∧ k ∉ fs.map Prod.fst) ∨
      k ∉ (m.chain (m.bucketOf k)).map Prod.fst := by
  by_cases mem : k ∈ (m.chain (m.bucketOf k)).map Prod.fst
  · obtain ⟨ks, ls, eq, no⟩ := List.eq_append_cons_of_mem mem
    obtain ⟨fs, gs', hc, rfl, hg⟩ := List.map_eq_append_iff.mp eq
    obtain ⟨⟨_, w⟩, gs, rfl, rfl, _⟩ := List.map_eq_cons_iff.mp hg
    exact .inl ⟨fs, w, gs, hc, no⟩
  · exact .inr mem

/-- The value found for a key of the chain is the first one. -/
lemma get?_of_mem (hc : m.chain (m.bucketOf k) = fs ++ (k, w) :: gs)
    (no : k ∉ fs.map Prod.fst) : m.get? k = some w := by
  have none : valueIn fs k = none := by
    refine valueIn_eq_none_iff.mpr fun e mem => ?_
    rintro rfl
    exact no (List.mem_map.mpr ⟨e, mem, rfl⟩)
  rw [get?_eq_valueIn, hc, valueIn_append, none, valueIn_cons, if_pos rfl, Option.none_or]

/-- A key that is not in the chain of its bucket is not found. -/
lemma get?_of_notMem (no : k ∉ (m.chain (m.bucketOf k)).map Prod.fst) : m.get? k = none := by
  rw [get?_eq_valueIn]
  refine valueIn_eq_none_iff.mpr fun e mem => ?_
  rintro rfl
  exact no (List.mem_map.mpr ⟨e, mem, rfl⟩)

end HashTable

namespace Represents

open LinkedTable

/-- A key is found by a search from what its bucket leads to. -/
lemma find_eq (rep : Represents base t m)
    (hb : t.slots.get? (t.firstBucket + m.bucketOf k) = some (.bucket a))
    (hs : t.search k t.numEntries a 0 = .ok (b, c)) : t.find k = .ok (m.bucketOf k, b, c) := by
  have hk : t.bucketOf k = .ok (m.bucketOf k) := by
    have pos := rep.counted.sound.pos
    rw [LinkedTable.bucketOf, rep.numbers.buckets, if_neg (Nat.ne_of_gt pos)]
    rfl
  rw [find, hk]
  simp only [bind, Except.bind, bucketAt_eq hb, hs]
  rfl

/-- The fuel of a search is enough for the whole chain of the key. -/
lemma enough (rep : Represents base t m) (k : κ) :
    ∃ n, t.numEntries = (m.chain (m.bucketOf k)).length + n := by
  have le := rep.counted.length_chain_le (m.bucketOf k)
  rw [← rep.numbers.entries] at le
  exact Nat.exists_eq_add_of_le le

/-- The entry of a key is found, with those before it and behind it. -/
lemma find_of_mem (rep : Represents base t m) (hc : m.chain (m.bucketOf k) = fs ++ (k, w) :: gs)
    (no : k ∉ fs.map Prod.fst) :
    ∃ a c rest last, t.find k = .ok (m.bucketOf k, c, last) ∧
      t.slots.get? (t.firstBucket + m.bucketOf k) = some (.bucket a) ∧
      Linked t.slots base a fs c ∧ base < c ∧ t.slots.get? c = some (.entry ⟨k, w, rest⟩) ∧
      Linked t.slots base rest gs 0 := by
  obtain ⟨a, hb, ln⟩ := rep.chain _ (HashTable.bucketOf_lt rep.counted.sound.pos k)
  rw [hc] at ln
  obtain ⟨c, ln, ln'⟩ := ln.split
  obtain ⟨n, hn⟩ := rep.enough k
  cases ln' with
  | @cons _ _ rest _ _ _ above entry tail =>
    obtain ⟨last, eq⟩ := ln.search_eq no (gs.length + 1 + n) 0
    refine ⟨a, c, rest, last, rep.find_eq hb ?_, hb, ln, above, entry, tail⟩
    rw [hn, hc, List.length_append, List.length_cons, Nat.add_assoc, eq, Nat.add_right_comm,
      search_entry (Nat.ne_of_gt (Nat.zero_lt_of_lt above)) entry, if_pos rfl]

/-- A key that is not in its chain is not found. -/
lemma find_of_notMem (rep : Represents base t m)
    (no : k ∉ (m.chain (m.bucketOf k)).map Prod.fst) :
    ∃ last, t.find k = .ok (m.bucketOf k, 0, last) := by
  obtain ⟨a, hb, ln⟩ := rep.chain _ (HashTable.bucketOf_lt rep.counted.sound.pos k)
  obtain ⟨n, hn⟩ := rep.enough k
  obtain ⟨last, eq⟩ := ln.search_eq no n 0
  exact ⟨last, rep.find_eq hb (by rw [hn, eq, search_zero])⟩

/-- A key whose bucket is empty is not found, and there is no last entry. -/
lemma find_of_nil (rep : Represents base t m) (hc : m.chain (m.bucketOf k) = []) :
    t.find k = .ok (m.bucketOf k, 0, 0) ∧
      t.slots.get? (t.firstBucket + m.bucketOf k) = some (.bucket 0) := by
  obtain ⟨a, hb, ln⟩ := rep.chain _ (HashTable.bucketOf_lt rep.counted.sound.pos k)
  rw [hc] at ln
  obtain rfl := ln.eq_end
  exact ⟨rep.find_eq hb (search_zero ..), hb⟩

/-- If a key is not in its chain, the last entry of the chain is found. -/
lemma find_of_concat (rep : Represents base t m)
    (hc : m.chain (m.bucketOf k) = fs ++ [(k', w)])
    (no : k ∉ (fs ++ [(k', w)]).map Prod.fst) :
    ∃ a c, t.find k = .ok (m.bucketOf k, 0, c) ∧
      t.slots.get? (t.firstBucket + m.bucketOf k) = some (.bucket a) ∧
      Linked t.slots base a fs c ∧ base < c ∧ t.slots.get? c = some (.entry ⟨k', w, 0⟩) := by
  obtain ⟨a, hb, ln⟩ := rep.chain _ (HashTable.bucketOf_lt rep.counted.sound.pos k)
  rw [hc] at ln
  obtain ⟨c, ln, ln'⟩ := ln.split
  obtain ⟨n, hn⟩ := rep.enough k
  rw [List.map_append, List.mem_append, not_or] at no
  cases ln' with
  | cons above entry tail =>
    obtain rfl := tail.eq_end
    obtain ⟨last, eq⟩ := ln.search_eq no.1 (1 + n) 0
    have ne : k' ≠ k := by
      rintro rfl
      exact no.2 (by simp)
    refine ⟨a, c, rep.find_eq hb ?_, hb, ln, above, entry⟩
    rw [hn, hc, List.length_append, List.length_singleton, Nat.add_assoc, eq, Nat.add_comm,
      search_entry (Nat.ne_of_gt (Nat.zero_lt_of_lt above)) entry, if_neg ne, search_zero]

/-- The value of a key is found. -/
theorem get?_eq (rep : Represents base t m) (k : κ) : t.get? k = .ok (m.get? k) := by
  rcases m.chain_cases k with ⟨fs, w, gs, hc, no⟩ | no
  · obtain ⟨a, c, rest, last, hf, -, -, above, entry, -⟩ := rep.find_of_mem hc no
    rw [HashTable.get?_of_mem hc no, LinkedTable.get?, hf]
    simp only [bind, Except.bind, if_neg (Nat.ne_of_gt (Nat.zero_lt_of_lt above)),
      entryAt_eq entry]
    rfl
  · obtain ⟨last, hf⟩ := rep.find_of_notMem no
    rw [HashTable.get?_of_notMem no, LinkedTable.get?, hf]
    rfl

/-- A key is told to be there exactly if it has a value. -/
lemma contains_eq (rep : Represents base t m) (k : κ) :
    t.contains k = .ok (m.get? k).isSome := by
  rw [LinkedTable.contains, rep.get?_eq]
  rfl

end Represents

/-! ### Storing -/

namespace LinkedTable

variable [Inhabited ν] [EntryLayout κ ν]

/-- Where the key was found, its value is replaced. -/
lemma store_of_entry (hf : t.find k = .ok (i, a, b)) (pos : a ≠ 0) {rest : Nat}
    (he : t.slots.get? a = some (.entry ⟨k, w, rest⟩)) (v : ν) :
    t.store k v = .ok (t.setSlot a (.entry ⟨k, v, rest⟩)) := by
  have entry : t.entryFor k = .ok (a, t) := by
    rw [entryFor, hf]
    simp only [bind, Except.bind, if_neg pos]
    rfl
  rw [store, entry]
  exact setValue_eq he v

/-- The table with a new entry, to which the slot at `a` leads now that it holds `s`. -/
def added (t : LinkedTable κ ν) (a : Nat) (s : Slot κ ν) (collides : Bool) (k : κ) (v : ν) :
    LinkedTable κ ν :=
  (((t.newEntry k).2.setSlot a s).countEntry collides).setSlot t.slots.top (.entry ⟨k, v, 0⟩)

section
variable {x : Nat} {s o : Slot κ ν} {collides : Bool}

omit [DecidableEq κ] [HashKey κ]

/-- A new entry lies behind all slots. -/
lemma newEntry_fst (t : LinkedTable κ ν) (k : κ) : (t.newEntry k).1 = t.slots.top := rfl

/-- A new entry leaves the slots before it as they are. -/
lemma get?_newEntry_of_le (le : x ≤ t.slots.size) (k : κ) :
    (t.newEntry k).2.slots.get? x = t.slots.get? x :=
  Growing.get?_append_of_le le _

/-- A new entry is there after a link to it was written elsewhere. -/
lemma get?_newEntry_top (ne : a ≠ t.slots.top) :
    (((t.newEntry k).2.setSlot a s).countEntry collides).slots.get? t.slots.top
      = some (.entry (.fresh k)) := by
  rw [slots_countEntry, slots_setSlot, Growing.get?_set_ne ne]
  simp only [newEntry, Growing.get?_append, Nat.lt_irrefl, if_false, Nat.sub_self]
  rw [Array.getElem?_append_left (by simp)]
  rfl

/-- The entry that was added holds its key and its value, and it is the last. -/
lemma get?_added_top (ne : a ≠ t.slots.top) :
    (t.added a s collides k v).slots.get? t.slots.top = some (.entry ⟨k, v, 0⟩) := by
  have fresh : (((t.newEntry k).2.setSlot a s).countEntry collides).slots.get? t.slots.top
      = some (.entry (.fresh k)) := get?_newEntry_top ne
  exact Growing.get?_set_self fresh

omit [Inhabited ν] [EntryLayout κ ν] in
/-- No slot is there yet where the next one will be. -/
lemma ne_top_of_get? (hx : t.slots.get? x = some o) : x ≠ t.slots.top :=
  Nat.ne_of_lt (Nat.lt_succ_of_le (Growing.le_size_of_get? hx))

/-- The slot that leads to the new entry was written. -/
lemma get?_added_self (ha : t.slots.get? a = some o) :
    (t.added a s collides k v).slots.get? a = some s := by
  have ha' := (get?_newEntry_of_le (Growing.le_size_of_get? ha) k).trans ha
  exact (Growing.get?_set_ne (ne_top_of_get? ha).symm).trans (Growing.get?_set_self ha')

/-- The other slots are as they were. -/
lemma get?_added_of_ne (hx : t.slots.get? x = some o) (ne : x ≠ a) :
    (t.added a s collides k v).slots.get? x = some o := by
  have hx' := (get?_newEntry_of_le (Growing.le_size_of_get? hx) k).trans hx
  exact ((Growing.get?_set_ne (ne_top_of_get? hx).symm).trans
    (Growing.get?_set_ne ne.symm)).trans hx'

end

/-- Where nothing was found in an empty chain, the bucket leads to a new entry. -/
lemma store_of_nil (hf : t.find k = .ok (i, 0, 0))
    (hb : t.slots.get? (t.firstBucket + i) = some (.bucket a)) (v : ν) :
    t.store k v
      = .ok (t.added (t.firstBucket + i) (.bucket t.slots.top) false k v) := by
  have entry : t.entryFor k = .ok (t.slots.top,
      ((t.newEntry k).2.setBucket i t.slots.top).countEntry false) := by
    rw [entryFor, hf]
    rfl
  rw [store, entry]
  exact setValue_eq (get?_newEntry_top (ne_top_of_get? hb)) v

/-- Where the key was not found, the last entry of the chain leads to a new one. -/
lemma store_of_last (hf : t.find k = .ok (i, 0, a)) (pos : a ≠ 0)
    (he : t.slots.get? a = some (.entry ⟨k', w, 0⟩)) (v : ν) :
    t.store k v = .ok (t.added a (.entry ⟨k', w, t.slots.top⟩) true k v) := by
  have he' := (get?_newEntry_of_le (Growing.le_size_of_get? he) k).trans he
  have rest := setRest_eq he' t.slots.top
  have entry : t.entryFor k = .ok (t.slots.top,
      ((t.newEntry k).2.setSlot a (.entry ⟨k', w, t.slots.top⟩)).countEntry true) := by
    rw [entryFor, hf]
    simp only [bind, Except.bind, if_true, if_neg pos, newEntry_fst, rest]
    rfl
  rw [store, entry]
  exact setValue_eq (get?_newEntry_top (ne_top_of_get? he)) v

end LinkedTable

namespace Represents

open LinkedTable HashTable

variable [Inhabited ν] [EntryLayout κ ν]

/-- A value is replaced in the entry of its key. -/
lemma store_of_mem (rep : Represents base t m) (hc : m.chain (m.bucketOf k) = fs ++ (k, w) :: gs)
    (no : k ∉ fs.map Prod.fst) (v : ν) :
    ∃ t', t.store k v = .ok t' ∧ Writes base t m k v t' := by
  obtain ⟨a, c, rest, last, hf, hb, before, above, entry, after⟩ := rep.find_of_mem hc no
  have pos : c ≠ 0 := Nat.ne_of_gt (Nat.zero_lt_of_lt above)
  have mem : k ∈ (m.chain (m.bucketOf k)).map Prod.fst := by simp [hc]
  have nd := rep.counted.sound.nodup (m.bucketOf k)
  rw [hc] at nd
  -- the entry that is written is in neither of the two parts of its chain
  have same : ∀ {hs : List (κ × ν)} {x e}, k ∉ hs.map Prod.fst → e.key ∈ hs.map Prod.fst →
      t.slots.get? x = some (.entry e) → c ≠ x := by
    rintro hs x e no mem he rfl
    rw [entry] at he
    cases he
    exact no mem
  refine ⟨_, store_of_entry hf pos entry v, rfl, ?_, ?_, a, ?_, ?_⟩
  · obtain ⟨entries, collisions⟩ := insert_numbers_of_mem (v := v) mem
    exact ⟨by simp [rep.numbers.buckets, setSlot], by simp [rep.numbers.entries, setSlot, entries],
      by simp [rep.numbers.collisions, setSlot, collisions], rep.numbers.rehash⟩
  · intro x s hs other
    have ne : c ≠ x := by
      rintro rfl
      rw [entry] at hs
      cases hs
      exact (other above).2 _ rfl rfl
    rw [slots_setSlot, Growing.get?_set_ne ne, hs]
  · have ne : c ≠ t.firstBucket + m.bucketOf k := by
      rintro rfl
      simp [hb] at entry
    rw [slots_setSlot, Growing.get?_set_ne ne, hb]
  · rw [hc, update_append_cons nd]
    rw [List.map_append, List.map_cons, List.nodup_middle, List.nodup_cons, List.mem_append,
      not_or] at nd
    refine (before.frame ?_).append (.cons above (Growing.get?_set_self entry) (after.frame ?_))
    · intro x e _ he mem
      rw [slots_setSlot, Growing.get?_set_ne (same nd.1.1 mem he), he]
    · intro x e _ he mem
      rw [slots_setSlot, Growing.get?_set_ne (same nd.1.2 mem he), he]

omit [Inhabited ν] [EntryLayout κ ν] in
/-- The buckets of a table lie above its base. -/
lemma above_bucket (rep : Represents base t m) (i : Nat) : base < t.firstBucket + i :=
  Nat.lt_of_lt_of_le rep.above (Nat.le_add_right ..)

omit [Inhabited ν] [EntryLayout κ ν] in
/-- What is added next lies above the base of a table. -/
lemma above_top (rep : Represents base t m) : base < t.slots.top := by
  obtain ⟨a, hb, -⟩ := rep.chain 0 rep.counted.sound.pos
  exact Nat.lt_succ_of_lt
    (Nat.lt_of_lt_of_le (rep.above_bucket 0) (Growing.le_size_of_get? hb))

/-- The first entry of a chain is added. -/
lemma store_of_empty (rep : Represents base t m) (hc : m.chain (m.bucketOf k) = []) (v : ν) :
    ∃ t', t.store k v = .ok t' ∧ Writes base t m k v t' := by
  obtain ⟨hf, hb⟩ := rep.find_of_nil hc
  have no : k ∉ (m.chain (m.bucketOf k)).map Prod.fst := by simp [hc]
  obtain ⟨entries, collisions⟩ := insert_numbers_of_notMem (v := v) no
  rw [if_pos hc] at collisions
  refine ⟨_, store_of_nil hf hb v, rfl, ?_, ?_, t.slots.top, get?_added_self hb, ?_⟩
  · exact ⟨rep.numbers.buckets.trans numBuckets_insert.symm,
      (congrArg (· + 1) rep.numbers.entries).trans entries.symm,
      rep.numbers.collisions.trans collisions.symm, rep.numbers.rehash⟩
  · intro x s hs other
    refine get?_added_of_ne hs ?_
    rintro rfl
    exact (other (rep.above_bucket _)).1 rfl
  · rw [hc, update_of_notMem (by simp), List.nil_append]
    exact .cons rep.above_top (get?_added_top (ne_top_of_get? hb)) (.nil 0)

/-- An entry is added behind the last one of a chain. -/
lemma store_of_concat (rep : Represents base t m)
    (hc : m.chain (m.bucketOf k) = fs ++ [(k', w)])
    (no : k ∉ (m.chain (m.bucketOf k)).map Prod.fst) (v : ν) :
    ∃ t', t.store k v = .ok t' ∧ Writes base t m k v t' := by
  obtain ⟨a, c, hf, hb, before, above, entry⟩ := rep.find_of_concat hc (hc ▸ no)
  have pos : c ≠ 0 := Nat.ne_of_gt (Nat.zero_lt_of_lt above)
  obtain ⟨entries, collisions⟩ := insert_numbers_of_notMem (v := v) no
  rw [if_neg (by simp [hc])] at collisions
  have sound := rep.counted.sound
  have home : m.bucketOf k' = m.bucketOf k := sound.home (by simp [hc])
  have nd := sound.nodup (m.bucketOf k)
  refine ⟨_, store_of_last hf pos entry v, rfl, ?_, ?_, a, ?_, ?_⟩
  · exact ⟨rep.numbers.buckets.trans numBuckets_insert.symm,
      (congrArg (· + 1) rep.numbers.entries).trans entries.symm,
      (congrArg (· + 1) rep.numbers.collisions).trans collisions.symm, rep.numbers.rehash⟩
  · intro x s hs other
    refine get?_added_of_ne hs ?_
    rintro rfl
    rw [entry] at hs
    cases hs
    exact (other above).2 _ rfl home
  · refine get?_added_of_ne hb ?_
    rintro rfl
    simp [hb] at entry
  · rw [update_of_notMem no, hc, List.append_assoc]
    rw [hc, List.map_append, List.map_cons, List.nodup_middle, List.nodup_cons] at nd
    refine (before.frame fun x e _ he mem => get?_added_of_ne he ?_).append ?_
    · rintro rfl
      rw [entry] at he
      cases he
      exact nd.1 (List.mem_append_left _ mem)
    · exact .cons above (get?_added_self entry)
        (.cons rep.above_top (get?_added_top (ne_top_of_get? entry)) (.nil 0))

/-- Storing a value has the same effect in the array, where only the chain of the key is
written. -/
theorem store (rep : Represents base t m) (k : κ) (v : ν) :
    ∃ t', t.store k v = .ok t' ∧ Represents base t' (m.insert k v) ∧
      ∀ x s, x ≤ base → t.slots.get? x = some s → t'.slots.get? x = some s := by
  suffices h : ∃ t', t.store k v = .ok t' ∧ Writes base t m k v t' by
    obtain ⟨t', hs, wr⟩ := h
    exact ⟨t', hs, wr.represents rep, fun _ _ le hs => wr.below le hs⟩
  rcases m.chain_cases k with ⟨fs, w, gs, hc, no⟩ | no
  · exact rep.store_of_mem hc no v
  · rcases List.eq_nil_or_concat' (m.chain (m.bucketOf k)) with hc | ⟨fs, e, hc⟩
    · exact rep.store_of_empty hc v
    · exact rep.store_of_concat hc no v

end Represents
end TermHeap
