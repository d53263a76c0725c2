import TermHeap.Proofs.HashTable.Refinement

/-!
# Iterating over a table in one array

From a place on, an iteration meets what is left of the chain there and then the chains of the
later buckets (`Ahead`). Going on to the next place takes away the first entry of these
(`Ahead.next`), and a place without an entry is the end, as empty buckets are passed over
(`Ahead.skipEmpty`). So the iteration from the first place lists the entries bucket by bucket and
stops (`Represents.entries_eq`).
-/

namespace TermHeap

open LinkedTable

variable {κ ν : Type} [DecidableEq κ] [HashKey κ] {t : LinkedTable κ ν} {m : HashTable κ ν}
  {base a i fuel left : Nat} {it : Iterator} {e : κ × ν} {es : List (κ × ν)}

namespace HashTable

omit [DecidableEq κ] [HashKey κ]

/-- The entries of the buckets from number `i` on. -/
def entriesFrom (m : HashTable κ ν) (i : Nat) : List (κ × ν) := (m.buckets.toList.drop i).flatten

/-- From a bucket on there is its chain, and then what there is from the next one on. -/
lemma entriesFrom_of_lt (lt : i < m.numBuckets) :
    m.entriesFrom i = m.chain i ++ m.entriesFrom (i + 1) := by
  have lt' : i < m.buckets.toList.length := lt
  rw [entriesFrom, List.drop_eq_getElem_cons lt', List.flatten_cons, Array.getElem_toList,
    chain_eq_getElem lt]
  rfl

/-- Behind the last bucket there are no entries. -/
lemma entriesFrom_of_le (le : m.numBuckets ≤ i) : m.entriesFrom i = [] := by
  have le' : m.buckets.toList.length ≤ i := le
  rw [entriesFrom, List.drop_eq_nil_of_le le', List.flatten_nil]

end HashTable

/-- The entries `es` are those that an iteration meets from a place on. -/
structure Ahead (base : Nat) (t : LinkedTable κ ν) (m : HashTable κ ν) (it : Iterator)
    (es : List (κ × ν)) : Prop where
  lt : it.bucket < m.numBuckets
  rest : ∃ cs, Linked t.slots base it.current cs 0 ∧ es = cs ++ m.entriesFrom (it.bucket + 1)

namespace Ahead

/-- Only at the end is there no entry after empty buckets were passed over. -/
lemma skipEmpty (rep : Represents base t m) (ah : Ahead base t m it es)
    (hl : it.bucket + 1 + left = m.numBuckets) :
    ∃ it', t.skipEmpty left it = .ok it' ∧ Ahead base t m it' es ∧ (it'.current = 0 → es = []) := by
  -- by the number of buckets behind the one at the place
  induction left generalizing it es with
  | zero =>
    refine ⟨it, rfl, ah, fun zero => ?_⟩
    obtain ⟨cs, ln, rfl⟩ := ah.rest
    rw [zero] at ln
    rw [ln.eq_nil, HashTable.entriesFrom_of_le (Nat.le_of_eq hl.symm), List.nil_append]
  | succ left ih =>
    rw [LinkedTable.skipEmpty]
    split
    · rename_i zero
      obtain ⟨cs, ln, rfl⟩ := ah.rest
      rw [zero] at ln
      have lt : it.bucket + 1 < m.numBuckets := by omega
      obtain ⟨first, hb, ln'⟩ := rep.chain _ lt
      rw [bucketAt_eq hb, ln.eq_nil, HashTable.entriesFrom_of_lt lt, List.nil_append]
      have ah' : Ahead base t m ⟨it.bucket + 1, first⟩
          (m.chain (it.bucket + 1) ++ m.entriesFrom (it.bucket + 1 + 1)) := ⟨lt, _, ln', rfl⟩
      have hl' : it.bucket + 1 + 1 + left = m.numBuckets := by omega
      exact ih ah' hl'
    · rename_i pos
      exact ⟨it, rfl, ah, fun zero => absurd zero pos⟩

/-- Going on takes away the entry at a place. -/
lemma next (rep : Represents base t m) (ah : Ahead base t m it (e :: es))
    (pos : it.current ≠ 0) :
    ∃ rest it', t.entryAt it.current = .ok ⟨e.1, e.2, rest⟩ ∧ t.next it = .ok it' ∧
      Ahead base t m it' es ∧ (it'.current = 0 → es = []) := by
  obtain ⟨cs, ln, eq⟩ := ah.rest
  cases cs with
  | nil => exact absurd ln.eq_end pos
  | cons e' cs =>
    cases ln with
    | @cons _ _ rest k v _ _ entry tail =>
      obtain ⟨rfl, rfl⟩ := List.cons.inj eq
      have lt := ah.lt
      have ah' : Ahead base t m ⟨it.bucket, rest⟩ (cs ++ m.entriesFrom (it.bucket + 1)) :=
        ⟨lt, cs, tail, rfl⟩
      obtain ⟨it', hs, ah'', stop⟩ := ah'.skipEmpty rep
        (Nat.add_sub_of_le lt)
      refine ⟨rest, it', entryAt_eq entry, ?_, ah'', stop⟩
      rw [LinkedTable.next, if_neg pos, entryAt_eq entry, rep.numbers.buckets]
      exact hs

/-- An iteration with enough fuel lists the entries that are ahead. -/
lemma entriesFrom_eq (rep : Represents base t m) (ah : Ahead base t m it es)
    (stop : it.current = 0 → es = []) (le : es.length ≤ fuel) :
    t.entriesFrom fuel it = .ok es := by
  induction es generalizing it fuel with
  | nil =>
    obtain ⟨cs, ln, eq⟩ := ah.rest
    rw [(List.append_eq_nil_iff.mp eq.symm).1] at ln
    rw [LinkedTable.entriesFrom.eq_def, if_pos ln.eq_end]
  | cons e es ih =>
    have pos : it.current ≠ 0 := fun zero => List.cons_ne_nil _ _ (stop zero)
    obtain ⟨fuel, rfl⟩ := Nat.exists_eq_add_of_le' (Nat.le_trans (Nat.succ_pos _) le)
    obtain ⟨rest, it', he, hn, ah', stop'⟩ := ah.next rep pos
    rw [LinkedTable.entriesFrom, if_neg pos, he, hn]
    simp only [ih ah' stop' (Nat.le_of_succ_le_succ le)]
    rfl

end Ahead

namespace Represents

/-- At the first place of an iteration all entries are ahead. -/
lemma begin_eq (rep : Represents base t m) :
    ∃ it, t.begin = .ok it ∧ Ahead base t m it m.entries ∧ (it.current = 0 → m.entries = []) := by
  have pos := rep.counted.sound.pos
  obtain ⟨a, hb, ln⟩ := rep.chain 0 pos
  have ah : Ahead base t m ⟨0, a⟩ m.entries :=
    ⟨pos, m.chain 0, ln, HashTable.entriesFrom_of_lt pos⟩
  obtain ⟨it, hs, ah', stop⟩ := ah.skipEmpty rep (Nat.add_sub_of_le pos)
  refine ⟨it, ?_, ah', stop⟩
  rw [LinkedTable.begin, bucketAt_eq hb, rep.numbers.buckets]
  exact hs

/-- An iteration meets all entries, bucket by bucket, and stops. -/
theorem entries_eq (rep : Represents base t m) : t.entries = .ok m.entries := by
  obtain ⟨it, hb, ah, stop⟩ := rep.begin_eq
  have le : m.entries.length ≤ t.numEntries := by
    rw [rep.numbers.entries, rep.counted.length_entries]
  rw [LinkedTable.entries, hb]
  exact ah.entriesFrom_eq rep stop le

end Represents
end TermHeap
