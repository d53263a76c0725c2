import Mathlib.Tactic.Lemma
import TermHeap.HashTable.Linked

/-!
# Chains in one array

A row of entries that lie in one array is *linked* if each of them holds the index of the next
(`Linked`). As only the entries of the row count, it stays linked whatever happens to the rest of
the array (`Linked.frame`). A search for a key passes over a linked row without that key
(`Linked.search_eq`).
-/

namespace TermHeap

variable {κ ν : Type} {g g' : Growing (Slot κ ν)} {base a b c i : Nat} {s : Slot κ ν}
  {es fs : List (κ × ν)}

/-! ### Slots -/

section
variable {α : Type} {h : Growing α} {o : α}

/-- An item that can be read has its place within the size. -/
lemma Growing.le_size_of_get? (hg : h.get? i = some o) : i ≤ h.size := by
  have val : h.isValid i = true := by rw [← h.isSome_get?, hg, Option.isSome_some]
  exact (Growing.isValid_iff.mp val).2

/-- An item that was set is read back. -/
lemma Growing.get?_set_self {o' : α} (hg : h.get? i = some o') : (h.set i o).get? i = some o := by
  have val : h.isValid i = true := by rw [← h.isSome_get?, hg, Option.isSome_some]
  rw [h.get?_set, if_pos ⟨rfl, val⟩]

/-- Setting an item leaves the other items as they are. -/
lemma Growing.get?_set_ne {j : Nat} (ne : i ≠ j) : (h.set i o).get? j = h.get? j := by
  rw [h.get?_set, if_neg fun eq => ne eq.1]

/-- A block that is appended leaves the items before it as they are. -/
lemma Growing.get?_append_of_le (le : i ≤ h.size) (block : Array α) :
    (h.append block).get? i = h.get? i := by
  have lt : i < h.top := Nat.lt_succ_of_le le
  rw [h.get?_append, if_pos lt]

end

/-! ### Linked rows -/

/-- The entries that begin at `a` are linked, each to the next, and hold these keys and values. The
last of them is linked to `b`, and all lie above `base`. -/
inductive Linked (g : Growing (Slot κ ν)) (base : Nat) : Nat → List (κ × ν) → Nat → Prop where
  | nil (a : Nat) : Linked g base a [] a
  | cons {a b rest : Nat} {k : κ} {v : ν} {es : List (κ × ν)} (above : base < a)
      (entry : g.get? a = some (.entry ⟨k, v, rest⟩)) (tail : Linked g base rest es b) :
      Linked g base a ((k, v) :: es) b

namespace Linked

/-- Two rows of which the first is linked to the second are one row. -/
lemma append (ln : Linked g base a es c) (ln' : Linked g base c fs b) :
    Linked g base a (es ++ fs) b := by
  induction ln with
  | nil => exact ln'
  | cons above entry _ ih => exact .cons above entry (ih ln')

/-- A row can be cut in two anywhere. -/
lemma split (ln : Linked g base a (es ++ fs) b) :
    ∃ c, Linked g base a es c ∧ Linked g base c fs b := by
  induction es generalizing a with
  | nil => exact ⟨a, .nil a, ln⟩
  | cons e es ih =>
    cases ln with
    | cons above entry tail =>
      obtain ⟨c, ln, ln'⟩ := ih tail
      exact ⟨c, .cons above entry ln, ln'⟩

/-- A row stays linked if its own entries stay as they are. -/
lemma frame (ln : Linked g base a es b)
    (same : ∀ x e, base < x → g.get? x = some (.entry e) → e.key ∈ es.map Prod.fst →
      g'.get? x = some (.entry e)) : Linked g' base a es b := by
  induction ln with
  | nil a => exact .nil a
  | cons above entry _ ih =>
    refine .cons above (same _ _ above entry (by simp)) (ih fun x e lt he mem => ?_)
    exact same x e lt he (List.mem_cons_of_mem _ mem)

/-- An empty row ends where it begins. -/
lemma eq_end (ln : Linked g base a [] b) : a = b := by
  cases ln
  rfl

/-- A row that begins at no index is empty. -/
lemma eq_nil (ln : Linked g base 0 es b) : es = [] := by
  cases ln with
  | nil => rfl
  | cons above _ _ => exact absurd above (Nat.not_lt_zero _)

end Linked

/-! ### Reading and searching -/

namespace LinkedTable

variable {t : LinkedTable κ ν} {e : Entry κ ν}

@[simp] lemma slots_setSlot (t : LinkedTable κ ν) : (t.setSlot a s).slots = t.slots.set a s := rfl

@[simp] lemma slots_countEntry (t : LinkedTable κ ν) (collides : Bool) :
    (t.countEntry collides).slots = t.slots := rfl

/-- An entry is read where one lies. -/
lemma entryAt_eq (he : t.slots.get? a = some (.entry e)) : t.entryAt a = .ok e := by
  rw [entryAt, he]

/-- A bucket is read where one lies. -/
lemma bucketAt_eq (hb : t.slots.get? (t.firstBucket + i) = some (.bucket a)) :
    t.bucketAt i = .ok a := by
  rw [bucketAt, hb]

/-- The value of an entry is replaced, and its key and its link are kept. -/
lemma setValue_eq (he : t.slots.get? a = some (.entry e)) (v : ν) :
    t.setValue a v = .ok (t.setSlot a (.entry ⟨e.key, v, e.rest⟩)) := by
  rw [setValue, entryAt_eq he]
  rfl

/-- The link of an entry is replaced, and its key and its value are kept. -/
lemma setRest_eq (he : t.slots.get? a = some (.entry e)) (rest : Nat) :
    t.setRest a rest = .ok (t.setSlot a (.entry ⟨e.key, e.value, rest⟩)) := by
  rw [setRest, entryAt_eq he]
  rfl

section
variable [DecidableEq κ] [HashKey κ] [Inhabited ν] [EntryLayout κ ν] {k : κ}

omit [HashKey κ] [Inhabited ν] [EntryLayout κ ν] in
/-- A search ends where no entry is linked any more. -/
lemma search_zero (t : LinkedTable κ ν) (k : κ) (n last : Nat) :
    t.search k n 0 last = .ok (0, last) := by
  cases n <;> simp [search]

omit [HashKey κ] [Inhabited ν] [EntryLayout κ ν] in
/-- A search stops at an entry with the key and goes on behind any other. -/
lemma search_entry (pos : a ≠ 0) (he : t.slots.get? a = some (.entry e)) (n last : Nat) :
    t.search k (n + 1) a last
      = if e.key = k then .ok (a, last) else t.search k n e.rest a := by
  rw [search, if_neg pos, entryAt_eq he]

end

end LinkedTable

open LinkedTable in
/-- A search for a key passes over entries of other keys. -/
lemma Linked.search_eq [DecidableEq κ] {t : LinkedTable κ ν} {k : κ}
    (ln : Linked t.slots base a es b) (no : k ∉ es.map Prod.fst) (n last : Nat) :
    ∃ last', t.search k (es.length + n) a last = t.search k n b last' := by
  induction ln generalizing last with
  | nil a => exact ⟨last, by rw [List.length_nil, Nat.zero_add]⟩
  | @cons a b rest k' v es above entry _ ih =>
    rw [List.map_cons, List.mem_cons, not_or] at no
    obtain ⟨last', eq⟩ := ih no.2 a
    refine ⟨last', ?_⟩
    rw [List.length_cons, Nat.add_right_comm, search_entry (Nat.ne_of_gt (by omega)) entry,
      if_neg (Ne.symm no.1), eq]

end TermHeap
