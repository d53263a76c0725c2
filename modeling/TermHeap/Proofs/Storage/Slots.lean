import TermHeap.Proofs.Storage.Doubling

/-!
# Growing arrays lie in their storage

Storage represents a growing array if it has its size and capacity and holds in every slot what the
array has at that relative index, be it an item or left from a removed one (`Represents`). As long
as all sums fit into 63 bits, the operations on the two go hand in hand: what is written has a slot,
copying reaches every item, and items stay at their relative indices.
-/

namespace TermHeap

variable {α : Type}

namespace Storage

variable {st : Storage α} {old new : Array (Option α)} {block : List α} {a : α} {i j n : Nat}

/-! ### Slots -/

/-- Copying adds no slots. -/
lemma size_copySlots (old : Array (Option α)) (n : Nat) (new : Array (Option α)) :
    (copySlots old n new).size = new.size := by
  induction n generalizing new with
  | zero => rfl
  | succ n ih => rw [copySlots, ih, Array.size_setIfInBounds]

/-- Copying reaches the slots from 1 to `n` that the other row has, and no others. -/
lemma getElem?_copySlots (old : Array (Option α)) (n : Nat) (new : Array (Option α)) (i : Nat) :
    (copySlots old n new)[i]? =
      if 1 ≤ i ∧ i ≤ n ∧ i < new.size then some (old[i]?.getD none) else new[i]? := by
  induction n generalizing new with
  | zero => rw [copySlots, if_neg (by omega)]
  | succ n ih =>
    rw [copySlots, ih, Array.size_setIfInBounds, Array.getElem?_setIfInBounds]
    grind

/-- Writing changes one slot, if there is that slot. -/
lemma slot?_write (st : Storage α) (i j : Nat) (a : α) :
    (st.write i a).slot? j = if i = j ∧ 1 ≤ i ∧ i < st.capacity then some a else st.slot? j := by
  cases i with
  | zero => rw [write, if_neg (by omega)]
  | succ i =>
    cases j with
    | zero => rw [if_neg (by omega)]; rfl
    | succ j =>
      rw [write, slot?, slot?, Array.getElem?_setIfInBounds, capacity]
      grind

@[simp] lemma size_write (st : Storage α) (i : Nat) (a : α) : (st.write i a).size = st.size := by
  cases i with
  | zero => rfl
  | succ i => rfl

@[simp] lemma capacity_write (st : Storage α) (i : Nat) (a : α) :
    (st.write i a).capacity = st.capacity := by
  cases i with
  | zero => rfl
  | succ i => exact Array.size_setIfInBounds

@[simp] lemma size_fill (st : Storage α) (i : Nat) (block : List α) :
    (st.fill i block).size = st.size := by
  induction block generalizing st i with
  | nil => rfl
  | cons a block ih => rw [fill, ih, size_write]

@[simp] lemma capacity_fill (st : Storage α) (i : Nat) (block : List α) :
    (st.fill i block).capacity = st.capacity := by
  induction block generalizing st i with
  | nil => rfl
  | cons a block ih => rw [fill, ih, capacity_write]

/-- A block is written where there is room for all of it. -/
lemma slot?_fill (pos : 1 ≤ i) (room : i + block.length ≤ st.capacity) (j : Nat) :
    (st.fill i block).slot? j =
      if i ≤ j ∧ j < i + block.length then block[j - i]? else st.slot? j := by
  induction block generalizing st i with
  | nil => rw [fill, if_neg (by simp)]
  | cons a block ih =>
    rw [List.length_cons] at room
    rw [fill, ih (Nat.le_succ_of_le pos) (by rw [capacity_write]; omega), slot?_write,
      List.length_cons]
    by_cases first : j = i
    · subst first
      rw [if_neg (by omega), if_pos ⟨rfl, pos, by omega⟩, if_pos (by omega), Nat.sub_self]
      rfl
    · by_cases inside : i + 1 ≤ j ∧ j < i + 1 + block.length
      · obtain ⟨k, rfl⟩ := Nat.exists_eq_add_of_le inside.1
        rw [if_pos inside, if_pos (by omega), Nat.add_sub_cancel_left,
          show i + 1 + k - i = k + 1 by omega, List.getElem?_cons_succ]
      · rw [if_neg inside, if_neg (by omega), if_neg (by omega)]

/-- Where there is room, nothing is moved. -/
lemma ensure_of_eq (same : Growing.capacityFor st.size n st.capacity = st.capacity) :
    st.ensure n = st := if_pos same

/-- Where there is no room, the items are copied to storage of the new capacity. -/
lemma ensure_of_ne (ne : Growing.capacityFor st.size n st.capacity ≠ st.capacity) :
    st.ensure n = ⟨copySlots st.slots st.size
      (Array.replicate (Growing.capacityFor st.size n st.capacity) none), st.size⟩ := if_neg ne

@[simp] lemma size_ensure (st : Storage α) (n : Nat) : (st.ensure n).size = st.size := by
  by_cases same : Growing.capacityFor st.size n st.capacity = st.capacity
  · rw [ensure_of_eq same]
  · rw [ensure_of_ne same]

/-- Making room leads to the capacity for it. -/
lemma capacity_ensure (st : Storage α) (n : Nat) :
    (st.ensure n).capacity = Growing.capacityFor st.size n st.capacity := by
  by_cases same : Growing.capacityFor st.size n st.capacity = st.capacity
  · rw [ensure_of_eq same, same]
  · rw [ensure_of_ne same, capacity, size_copySlots, Array.size_replicate]

/-- Storage that is moved keeps the items and loses what is above them. -/
lemma slot?_ensure (st : Storage α) (n : Nat) (room : st.size < (st.ensure n).capacity) (i : Nat) :
    (st.ensure n).slot? i =
      if i ≤ st.size ∨ (st.ensure n).capacity = st.capacity then st.slot? i else none := by
  rw [capacity_ensure] at room
  rw [capacity_ensure]
  by_cases same : Growing.capacityFor st.size n st.capacity = st.capacity
  · rw [ensure_of_eq same, if_pos (.inr same)]
  · rw [ensure_of_ne same]
    cases i with
    | zero => rw [if_pos (.inl (Nat.zero_le _))]; rfl
    | succ i =>
      rw [slot?, getElem?_copySlots, Array.size_replicate]
      by_cases item : i + 1 ≤ st.size
      · have lt := Nat.lt_of_le_of_lt item room
        rw [if_pos ⟨Nat.le_add_left 1 i, item, lt⟩, if_pos (.inl item)]
        rfl
      · rw [if_neg fun h => item h.2.1, if_neg (by simp [item, same]), Array.getElem?_replicate]
        split <;> rfl

/-- What is allocated begins behind the items. -/
lemma allocate_fst (st : Storage α) (n : Nat) : (st.allocate n).1 = st.size + 1 := by
  rw [← size_ensure st n]
  rfl

/-- What is allocated counts as items. -/
lemma size_allocate (st : Storage α) (n : Nat) : (st.allocate n).2.size = st.size + n := by
  rw [← size_ensure st n]
  rfl

/-- Allocating makes room for what is allocated. -/
lemma capacity_allocate (st : Storage α) (n : Nat) :
    (st.allocate n).2.capacity = (st.ensure n).capacity := rfl

/-- What is allocated holds what happens to be there. -/
lemma slot?_allocate (st : Storage α) (n i : Nat) :
    (st.allocate n).2.slot? i = (st.ensure n).slot? i := by
  cases i with
  | zero => rfl
  | succ i => rfl

/-- A block begins behind the items. -/
lemma append_fst (st : Storage α) (block : List α) : (st.append block).1 = st.size + 1 :=
  allocate_fst st block.length

/-- A block is allocated and then filled. -/
lemma append_snd (st : Storage α) (block : List α) :
    (st.append block).2 = (st.allocate block.length).2.fill (st.size + 1) block := by
  rw [← allocate_fst st block.length]
  rfl

end Storage

/-! ### Arrays and their storage -/

namespace Growing

variable {g : Growing α} {above : List α} {i n old new : Nat}

/-- The slots up to the size hold the items. -/
lemma slot?_of_le (le : i ≤ g.size) : g.slot? i = g.get? i := if_pos le

/-- The slots above hold what was left there. -/
lemma slot?_of_gt (gt : g.size < i) : g.slot? i = g.above[i - g.size - 1]? :=
  if_neg (Nat.not_le.mpr gt)

/-- What is above stays only where the storage stays. -/
lemma getElem?_leftAbove (above : List α) (n old new j : Nat) :
    (leftAbove above n old new)[j]? = if new = old then above[n + j]? else none := by
  rw [leftAbove]
  split
  · exact List.getElem?_drop
  · rfl

/-- Making room moves the items, and what is above them is lost unless they stay. -/
lemma slot?_ensure (g : Growing α) (n i : Nat) :
    (g.ensure n).slot? i =
      if i ≤ g.size ∨ capacityFor g.size n g.capacity = g.capacity then g.slot? i else none := by
  by_cases item : i ≤ g.size
  · rw [if_pos (.inl item), slot?_of_le item]
    exact slot?_of_le item
  · have gt := Nat.not_le.mp item
    rw [slot?_of_gt gt]
    refine (slot?_of_gt (g := g.ensure n) gt).trans ?_
    refine (getElem?_leftAbove _ _ _ _ _).trans ?_
    simp only [item, false_or, Nat.zero_add]
    rfl

/-- An added block comes behind the items, in place of what was there. -/
lemma slot?_append (g : Growing α) (block : Array α) (i : Nat) :
    (g.append block).slot? i =
      if g.top ≤ i ∧ i < g.top + block.size then block[i - g.top]?
      else (g.ensure block.size).slot? i := by
  have size : (g.append block).size = g.size + block.size := Array.size_append
  have top : g.top = g.size + 1 := rfl
  by_cases item : i ≤ g.size
  · rw [if_neg (by omega), slot?_of_le (by omega), get?_append, if_pos (by omega)]
    exact (slot?_of_le (g := g.ensure block.size) item).symm
  · by_cases inside : i < g.top + block.size
    · rw [if_pos (by omega), slot?_of_le (by omega), get?_append, if_neg (by omega)]
    · rw [if_neg (by omega), slot?_of_gt (by omega), size, slot?_ensure]
      refine (getElem?_leftAbove _ _ _ _ _).trans ?_
      have place : block.size + (i - (g.size + block.size) - 1) = i - g.size - 1 := by omega
      simp only [item, false_or, place, slot?_of_gt (Nat.not_le.mp item)]
      rfl

/-- What is removed stays where it is. -/
lemma slot?_take (g : Growing α) {n : Nat} (le : n ≤ g.size) (i : Nat) :
    (g.take n).slot? i = g.slot? i := by
  obtain ⟨items, above, capacity⟩ := g
  change n ≤ items.size at le
  have removed : (take ⟨items, above, capacity⟩ n).size = n := by
    rw [Growing.size, take, Array.size_shrink, Nat.min_eq_left le]
  cases i with
  | zero => rfl
  | succ i =>
    by_cases kept : i < n
    · have item : i + 1 ≤ size ⟨items, above, capacity⟩ := Nat.lt_of_lt_of_le kept le
      rw [slot?_of_le (removed.symm ▸ kept), slot?_of_le item, get?, get?, take,
        ← Array.getElem?_toList, Array.toList_shrink, List.getElem?_take, if_pos kept,
        Array.getElem?_toList]
    · have place : i + 1 - n - 1 = i - n := by omega
      rw [slot?_of_gt (removed.symm ▸ by omega), removed, place]
      change ((items.extract n items.size).toList ++ above)[i - n]? = _
      by_cases item : i < items.size
      · rw [List.getElem?_append_left (by simp; omega), Array.getElem?_toList,
          Array.getElem?_extract, if_pos (by omega), Nat.add_sub_cancel' (Nat.not_lt.mp kept)]
        exact (slot?_of_le (g := ⟨items, above, capacity⟩) item).symm
      · rw [List.getElem?_append_right (by simp; omega)]
        refine Eq.trans ?_ (slot?_of_gt (g := ⟨items, above, capacity⟩)
          (Nat.lt_succ_of_le (Nat.not_lt.mp item))).symm
        change above[_]? = above[i + 1 - items.size - 1]?
        congr 1
        simp
        omega

/-- Setting an item changes its slot only. -/
lemma slot?_set (g : Growing α) {i : Nat} (le : i ≤ g.size) (j : Nat) (a : α) :
    (g.set i a).slot? j = if i = j ∧ 1 ≤ i then some a else g.slot? j := by
  have above : (g.set i a).above = g.above := by
    cases i with
    | zero => rfl
    | succ i => rfl
  by_cases item : j ≤ g.size
  · rw [slot?_of_le (by rwa [size_set]), slot?_of_le item, get?_set]
    simp only [isValid_iff, le, and_true]
  · rw [slot?_of_gt (by rw [size_set]; omega), if_neg (by omega), slot?_of_gt (by omega), above,
      size_set]

end Growing

namespace Storage

/-- The size and capacity of storage are those of an array, and its slots hold what the array has at
their relative indices. -/
structure Represents (st : Storage α) (g : Growing α) : Prop where
  size : st.size = g.size
  capacity : st.capacity = g.capacity
  room : st.size < st.capacity
  slot : ∀ i, st.slot? i = g.slot? i

/-- Empty storage represents an empty array. -/
lemma represents_empty (c : Nat) : (empty c : Storage α).Represents (.empty c) := by
  have capacity : (empty c : Storage α).capacity = max c 2 := Array.size_replicate
  refine ⟨rfl, capacity, ?_, ?_⟩
  · rw [capacity]
    exact Nat.lt_of_lt_of_le Nat.two_pos (Nat.le_max_right c 2)
  · intro i
    cases i with
    | zero => rfl
    | succ i =>
      rw [slot?, empty, Array.getElem?_replicate]
      split <;> rfl

namespace Represents

variable {st : Storage α} {g : Growing α} {c n : Nat} {requests : List Nat}

/-- Making room has the same effect, and there is room then. -/
lemma ensure (rep : st.Represents g)
    (room : st.size + n < Growing.capacityFor st.size n st.capacity) :
    (st.ensure n).Represents (g.ensure n) ∧ st.size + n < (st.ensure n).capacity := by
  have capacity := capacity_ensure st n
  rw [← capacity] at room
  refine ⟨⟨?_, ?_, ?_, ?_⟩, room⟩
  · rw [size_ensure, rep.size]
    rfl
  · rw [capacity, rep.size, rep.capacity]
    rfl
  · rw [size_ensure]
    exact Nat.lt_of_le_of_lt (Nat.le_add_right _ n) room
  · intro i
    rw [slot?_ensure st n (Nat.lt_of_le_of_lt (Nat.le_add_right _ n) room), Growing.slot?_ensure,
      capacity, rep.slot, rep.size, rep.capacity]

/-- A block is added with the same effect, and it begins at the next index. -/
lemma append (rep : st.Represents g) (block : List α)
    (room : st.size + block.length < Growing.capacityFor st.size block.length st.capacity) :
    (st.append block).1 = g.top ∧ (st.append block).2.Represents (g.append block.toArray) := by
  obtain ⟨rep', room'⟩ := rep.ensure room
  have capacity := capacity_allocate st block.length
  refine ⟨(append_fst st block).trans (congrArg (· + 1) rep.size), ⟨?_, ?_, ?_, ?_⟩⟩
  · rw [append_snd, size_fill, size_allocate, rep.size]
    exact Array.size_append.symm
  · rw [append_snd, capacity_fill, capacity, rep'.capacity]
    rfl
  · rw [append_snd, size_fill, capacity_fill, size_allocate, capacity]
    exact room'
  · intro i
    rw [append_snd, slot?_fill (Nat.le_add_left 1 _) (by omega), slot?_allocate, rep'.slot,
      Growing.slot?_append, Growing.top, rep.size, List.size_toArray, List.getElem?_toArray]

/-- Items are removed with the same effect. -/
lemma take (rep : st.Represents g) (le : n ≤ st.size) : (st.take n).Represents (g.take n) := by
  have le' := rep.size ▸ le
  refine ⟨?_, rep.capacity, Nat.lt_of_le_of_lt le rep.room, ?_⟩
  · rw [Growing.size, Growing.take, Array.size_shrink]
    exact (Nat.min_eq_left le').symm
  · intro i
    rw [Growing.slot?_take g le', ← rep.slot]
    rfl

/-- An item is replaced with the same effect. -/
lemma write (rep : st.Represents g) {i : Nat} (le : i ≤ st.size) (a : α) :
    (st.write i a).Represents (g.set i a) := by
  refine ⟨?_, ?_, ?_, ?_⟩
  · rw [size_write, Growing.size_set, rep.size]
  · rw [capacity_write, rep.capacity]
    cases i with
    | zero => rfl
    | succ i => rfl
  · rw [size_write, capacity_write]
    exact rep.room
  · intro j
    have lt := Nat.lt_of_le_of_lt le rep.room
    rw [slot?_write, Growing.slot?_set g (rep.size ▸ le), rep.slot]
    simp only [lt, and_true]

end Represents
end Storage
end TermHeap
