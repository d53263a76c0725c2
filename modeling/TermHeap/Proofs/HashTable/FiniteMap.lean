import TermHeap.Proofs.HashTable.Iteration
import TermHeap.Proofs.HashTable.Rebuilding

/-!
# A hash table is a finite map

What a caller learns of a table depends on what was put there, and not on its capacity, the hashes
of the keys, the moments when it grew or those when it was rebuilt. A table *serves* a history if
it represents one in which every key has the value of its last put (`Serves`). Each operation is
answered accordingly and serves the history with itself at the end (`Serves.step`), so from an
empty table on all operations succeed (`LinkedTable.run_lastPut`).
-/

namespace TermHeap

/-- What a caller does to a table. -/
inductive TableOp (κ ν : Type) where
  | put (k : κ) (v : ν)
  | get (k : κ)
  | contains (k : κ)
  | rehash (n : Nat)
deriving DecidableEq, Repr

/-- What the caller is told. -/
inductive TableAnswer (ν : Type) where
  | added (isNew : Bool)
  | value (v : Option ν)
  | present (stored : Bool)
  | done
deriving DecidableEq, Repr

variable {κ ν : Type} [DecidableEq κ] {past ops : List (TableOp κ ν)} {op : TableOp κ ν}
  {k k' : κ} {v : ν}

/-! ### Histories -/

/-- The keys and values that were put, in their order. -/
def puts (ops : List (TableOp κ ν)) : List (κ × ν) :=
  ops.filterMap fun
    | .put k v => some (k, v)
    | _ => none

/-- The value of the last put of a key. -/
def lastPut (ops : List (TableOp κ ν)) (k : κ) : Option ν :=
  ((puts ops).reverse.find? (·.1 = k)).map (·.2)

/-- The answer to an operation that follows others. -/
def answerAfter (past : List (TableOp κ ν)) : TableOp κ ν → TableAnswer ν
  | .put k _ => .added (lastPut past k).isNone
  | .get k => .value (lastPut past k)
  | .contains k => .present (lastPut past k).isSome
  | .rehash _ => .done

/-- The answers to operations that follow others. -/
def answersAfter (past : List (TableOp κ ν)) : List (TableOp κ ν) → List (TableAnswer ν)
  | [] => []
  | op :: ops => answerAfter past op :: answersAfter (past ++ [op]) ops

/-- After a put, its key has its value, and the other keys have the values that they had. -/
lemma lastPut_put (past : List (TableOp κ ν)) (k k' : κ) (v : ν) :
    lastPut (past ++ [.put k v]) k' = if k' = k then some v else lastPut past k' := by
  rw [lastPut, puts, List.filterMap_append, List.reverse_append]
  change HashTable.valueIn ((k, v) :: (puts past).reverse) k' = _
  rw [HashTable.valueIn_cons]
  by_cases hk : k' = k
  · rw [if_pos hk.symm, if_pos hk]
  · rw [if_neg (Ne.symm hk), if_neg hk]
    rfl

/-- Operations other than puts change no value. -/
lemma lastPut_other (past : List (TableOp κ ν)) (h : puts [op] = []) :
    lastPut (past ++ [op]) = lastPut past := by
  have eq : puts (past ++ [op]) = puts past := by
    rw [puts, List.filterMap_append]
    exact (congrArg (puts past ++ ·) h).trans (List.append_nil _)
  funext k
  rw [lastPut, eq, lastPut]

/-- The keys that have a value are those that were put. -/
lemma isSome_lastPut : (lastPut ops k).isSome = true ↔ k ∈ (puts ops).map Prod.fst := by
  rw [lastPut, Option.isSome_map, List.find?_isSome]
  simp

/-! ### Runs -/

variable [HashKey κ] [Inhabited ν] [EntryLayout κ ν] {t t' : LinkedTable κ ν}

namespace LinkedTable

/-- Perform one operation. -/
def step (t : LinkedTable κ ν) :
    TableOp κ ν → Except Misuse (TableAnswer ν × LinkedTable κ ν)
  | .put k v => do
    let (isNew, t) ← t.put k v
    return (.added isNew, t)
  | .get k => return (.value (← t.get? k), t)
  | .contains k => return (.present (← t.contains k), t)
  | .rehash n => return (.done, ← t.rehash n)

/-- Perform operations one after the other. -/
def run (t : LinkedTable κ ν) :
    List (TableOp κ ν) → Except Misuse (List (TableAnswer ν) × LinkedTable κ ν)
  | [] => .ok ([], t)
  | op :: ops => do
    let (answer, t) ← t.step op
    let (answers, t) ← t.run ops
    return (answer :: answers, t)

end LinkedTable

/-- Every key has the value of its last put. -/
def Serves (past : List (TableOp κ ν)) (t : LinkedTable κ ν) : Prop :=
  ∃ m, Represents 0 t m ∧ ∀ k, m.get? k = lastPut past k

namespace Serves

omit [Inhabited ν] [EntryLayout κ ν] in
/-- An empty table serves the empty history. -/
lemma empty (capacity : Nat) : Serves [] (.empty capacity : LinkedTable κ ν) :=
  ⟨.empty capacity, represents_empty capacity, HashTable.get?_empty capacity⟩

/-- An operation is answered as the history says, and the table then serves the history with it at
the end. -/
lemma step (sv : Serves past t) (pos : ∀ n, op = .rehash n → 1 ≤ n) :
    ∃ t', t.step op = .ok (answerAfter past op, t') ∧ Serves (past ++ [op]) t' := by
  obtain ⟨m, rep, hm⟩ := sv
  cases op with
  | put k v =>
    obtain ⟨t', hp, rep'⟩ := rep.put k v
    have sound := rep.counted.sound
    refine ⟨t', ?_, _, rep', fun k' => ?_⟩
    · rw [LinkedTable.step, hp, rep.counted.putNew_fst, hm]
      rfl
    · rw [lastPut_put, ← hm]
      exact sound.get?_put
  | get k =>
    refine ⟨t, ?_, m, rep, by rwa [lastPut_other past rfl]⟩
    rw [LinkedTable.step, rep.get?_eq, hm]
    rfl
  | contains k =>
    refine ⟨t, ?_, m, rep, by rwa [lastPut_other past rfl]⟩
    rw [LinkedTable.step, rep.contains_eq, hm]
    rfl
  | rehash n =>
    obtain ⟨t', hr, rep'⟩ := rep.rehash (pos n rfl)
    refine ⟨t', ?_, _, rep', fun k => ?_⟩
    · rw [LinkedTable.step, hr]
      rfl
    · rw [lastPut_other past rfl, rep.counted.sound.get?_rehash, hm]

/-- All operations are answered as the history says, each by those before it. -/
lemma run (sv : Serves past t) (pos : ∀ n, .rehash n ∈ ops → 1 ≤ n) :
    ∃ t', t.run ops = .ok (answersAfter past ops, t') ∧ Serves (past ++ ops) t' := by
  induction ops generalizing past t with
  | nil => exact ⟨t, rfl, by rwa [List.append_nil]⟩
  | cons op ops ih =>
    have pos' : ∀ n, op = .rehash n → 1 ≤ n := fun n eq => pos n (eq ▸ List.mem_cons_self)
    obtain ⟨t', hs, sv'⟩ := sv.step pos'
    obtain ⟨u, hu, sv''⟩ := ih sv' fun n mem => pos n (List.mem_cons_of_mem _ mem)
    refine ⟨u, ?_, by rwa [← List.append_cons] at sv''⟩
    rw [LinkedTable.run, hs]
    simp only [bind, Except.bind, hu]
    rfl

omit [Inhabited ν] [EntryLayout κ ν] in
/-- As many entries are counted as there are keys that were put. -/
lemma numEntries_eq (sv : Serves ops t) :
    t.numEntries = ((puts ops).map Prod.fst).toFinset.card := by
  obtain ⟨m, rep, hm⟩ := sv
  rw [rep.numbers.entries, rep.counted.count]
  congr 1
  ext k
  rw [rep.counted.sound.mem_keys, hm, isSome_lastPut, List.mem_toFinset]

end Serves

/-- A table of any initial capacity answers like a finite map: a lookup finds the value of the last
put, a put tells whether the key is new, and rebuilding the table makes no difference. After any
operations, the entries are those of the keys that were put, each once and with its last value. -/
theorem LinkedTable.run_lastPut (capacity : Nat) (ops : List (TableOp κ ν))
    (pos : ∀ n, .rehash n ∈ ops → 1 ≤ n) :
    ∃ t, (empty capacity : LinkedTable κ ν).run ops = .ok (answersAfter [] ops, t) ∧
      (∀ k, t.get? k = .ok (lastPut ops k) ∧ t.contains k = .ok (lastPut ops k).isSome) ∧
      t.numEntries = ((puts ops).map Prod.fst).toFinset.card ∧
      ∃ es, t.entries = .ok es ∧ (es.map Prod.fst).Nodup ∧
        ∀ k v, (k, v) ∈ es ↔ lastPut ops k = some v := by
  obtain ⟨t, hr, sv⟩ := (Serves.empty capacity).run pos
  rw [List.nil_append] at sv
  obtain ⟨m, rep, hm⟩ := sv
  refine ⟨t, hr, fun k => ⟨?_, ?_⟩, Serves.numEntries_eq ⟨m, rep, hm⟩, m.entries, rep.entries_eq,
    rep.counted.sound.nodup_keys, fun k v => ?_⟩
  · rw [rep.get?_eq, hm]
  · rw [rep.contains_eq, hm]
  · rw [← hm, rep.counted.sound.get?_eq_some_iff]

/-- The second put is no new key, the third makes the table grow, and all keys share a bucket once
it was rebuilt. -/
theorem LinkedTable.run_lastPut_oneBucket :
    ∃ t, (empty 1 : LinkedTable Int32 Int32).run
        [.put 1 10, .put 1 20, .put (-5) 7, .rehash 1, .get 1, .contains 3]
      = .ok ([.added true, .added false, .added true, .done, .value (some 20), .present false], t) ∧
      (t.get? (-5) = .ok (some 7) ∧ t.contains (-5) = .ok true) ∧ t.numEntries = 2 ∧
      ∃ es, t.entries = .ok es ∧ (es.map Prod.fst).Nodup ∧ (1, 20) ∈ es ∧ (-5, 7) ∈ es := by
  obtain ⟨t, hr, hk, hn, es, he, nd, mem⟩ := run_lastPut (κ := Int32) (ν := Int32) 1
    [.put 1 10, .put 1 20, .put (-5) 7, .rehash 1, .get 1, .contains 3] (by simp)
  exact ⟨t, hr, hk (-5), hn, es, he, nd, (mem 1 20).mpr (by decide), (mem (-5) 7).mpr (by decide)⟩

end TermHeap
