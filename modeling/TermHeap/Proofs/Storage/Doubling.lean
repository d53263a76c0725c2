import Mathlib.Order.Bounds.Basic
import Mathlib.Tactic.Ring
import TermHeap.Storage

/-!
# The capacity of growing storage

Storage is doubled until what is asked for has room beside slot 0, and never otherwise. As long as
all sums fit into 63 bits no doubling is lost, so the capacity is the initial one doubled the least
number of times that makes room for every request there was (`Doubled`), and one request more keeps
it so (`Doubled.capacityFor`).
-/

namespace TermHeap

/-- The capacity that storage of an initial capacity has when it was doubled `k` times. -/
def doubledCapacity (c k : Nat) : Nat := max c 2 * 2 ^ k

variable {c d k m n need : Nat} {requests : List Nat}

/-- Doubling stops as soon as there is room. -/
lemma Growing.doubleUntil_spec (pos : 0 < d) (small : need < 2 ^ 63) (enough : need < d * 2 ^ n) :
    ∃ k, Growing.doubleUntil need n d = d * 2 ^ k ∧ need < d * 2 ^ k ∧
      ∀ i < k, d * 2 ^ i ≤ need := by
  induction n generalizing d with
  | zero => exact ⟨0, (Nat.mul_one d).symm, enough, nofun⟩
  | succ n ih =>
    rw [doubleUntil]
    by_cases room : need < d
    · rw [if_pos (.inl room)]
      exact ⟨0, (Nat.mul_one d).symm, by rwa [pow_zero, Nat.mul_one], nofun⟩
    · have word : d * 2 % wordSpan = d * 2 := Nat.mod_eq_of_lt (by rw [wordSpan]; omega)
      rw [if_neg (by omega), word]
      have twice : ∀ i, d * 2 * 2 ^ i = d * 2 ^ (i + 1) := fun i => by ring
      obtain ⟨k, eq, lt, least⟩ := ih (d := d * 2) (by omega) (by rwa [twice])
      refine ⟨k + 1, eq.trans (twice k), twice k ▸ lt, ?_⟩
      intro i hi
      cases i with
      | zero => rw [pow_zero, Nat.mul_one]; exact Nat.not_lt.mp room
      | succ i => exact twice i ▸ least i (Nat.lt_of_succ_lt_succ hi)

/-- The initial capacity was doubled until there was room for all requests, and no more often. -/
structure Doubled (c : Nat) (requests : List Nat) (capacity : Nat) : Prop where
  room : ∀ m ∈ requests, m < capacity
  least : ∃ k, capacity = doubledCapacity c k ∧ ∀ i < k, ∃ m ∈ requests, doubledCapacity c i ≤ m

namespace Doubled

/-- Without requests nothing is doubled. -/
lemma initial (c : Nat) : Doubled c [] (max c 2) :=
  ⟨nofun, 0, (Nat.mul_one _).symm, nofun⟩

/-- There is always a slot beside slot 0. -/
lemma pos (db : Doubled c requests d) : 2 ≤ d := by
  obtain ⟨k, rfl, _⟩ := db.least
  exact (Nat.le_max_right c 2).trans (Nat.le_mul_of_pos_right _ (Nat.two_pow_pos k))

/-- A request for `n` items beside `m` others. -/
lemma capacityFor (db : Doubled c requests d) (small : m + n < 2 ^ 63) :
    m + n < Growing.capacityFor m n d ∧
      Doubled c (requests ++ [m + n]) (Growing.capacityFor m n d) := by
  have pos : 0 < d := Nat.lt_of_lt_of_le Nat.two_pos db.pos
  have word : (m + n) % wordSpan = m + n := Nat.mod_eq_of_lt (by rw [wordSpan]; omega)
  have enough : m + n < d * 2 ^ 64 := by omega
  obtain ⟨j, eq, lt, least⟩ := Growing.doubleUntil_spec pos small enough
  rw [Growing.capacityFor, word, eq]
  refine ⟨lt, ?_, ?_⟩
  · intro x mem
    rcases List.mem_append.mp mem with mem | mem
    · exact (db.room x mem).trans_le (Nat.le_mul_of_pos_right _ (Nat.two_pow_pos j))
    · rwa [List.mem_singleton.mp mem]
  · obtain ⟨k, rfl, before⟩ := db.least
    have sum : ∀ i, doubledCapacity c k * 2 ^ i = doubledCapacity c (k + i) := by
      intro i
      rw [doubledCapacity, doubledCapacity, pow_add, Nat.mul_assoc]
    refine ⟨k + j, sum j, ?_⟩
    intro i hi
    by_cases old : i < k
    · obtain ⟨x, mem, le⟩ := before i old
      exact ⟨x, List.mem_append_left _ mem, le⟩
    · obtain ⟨l, rfl⟩ := Nat.exists_eq_add_of_le (Nat.not_lt.mp old)
      exact ⟨m + n, by simp, sum l ▸ least l (by omega)⟩

/-- The number of doublings is the least one that leaves room for all requests beside slot 0. -/
lemma isLeast (db : Doubled c requests d) : ∃ k, d = doubledCapacity c k ∧
    IsLeast {k | ∀ m ∈ requests, m ≤ doubledCapacity c k - 1} k := by
  obtain ⟨k, rfl, least⟩ := db.least
  refine ⟨k, rfl, fun m mem => Nat.le_sub_one_of_lt (db.room m mem), ?_⟩
  intro i room
  by_contra lt
  obtain ⟨m, mem, le⟩ := least i (Nat.not_le.mp lt)
  have pos : 0 < doubledCapacity c i := Nat.mul_pos (by omega) (Nat.two_pow_pos i)
  have := room m mem
  omega

end Doubled
end TermHeap
