import TermHeap.Proofs.Storage.Slots
import TermHeap.Stack

/-!
# A stack is a list

What a caller learns of a stack is what a list would tell whose last item is on top, wherever the
storage was moved in between. The items of the array that the storage represents are the list
(`Keeps`), each operation keeps that (`Keeps.step`), and so do all operations in turn. The
capacity is determined by the requests alone (`Stack.run_eq_list`).
-/

namespace TermHeap

/-- What a caller does with a stack. -/
inductive StackOp (α : Type) where
  | push (a : α)
  /-- Allocate a block and write its items. -/
  | append (block : List α)
  | pop
  | trim (n : Nat)
  | clear
  | ensure (n : Nat)
  | «at» (index : Nat)
  | peek (depth : Nat)
  /-- Write the item that has `depth` items above it. -/
  | poke (depth : Nat) (a : α)
deriving DecidableEq, Repr

/-- What the caller is told. -/
inductive StackAnswer (α : Type) where
  | done
  /-- The relative index of the first item of a block. -/
  | first (index : Nat)
  | item (a : α)
  /-- The item that was looked for, if there is one. -/
  | seen (a : Option α)
  | fault (e : StackFault)
deriving DecidableEq, Repr

variable {α : Type}

/-! ### Lists -/

namespace StackOp

/-- The answer to an operation on a list, of which the last item is on top. -/
def answer (l : List α) : StackOp α → StackAnswer α
  | push _ | clear | ensure _ | poke _ _ => .done
  | append _ => .first (l.length + 1)
  | pop => l.getLast?.elim (.fault .empty) .item
  | trim n => if n ≤ l.length then .done else .fault .keepsTooMany
  | «at» index => l[index]?.elim (.fault .aboveTop) .item
  | peek depth => .seen l.reverse[depth]?

/-- The list after an operation. -/
def after (l : List α) : StackOp α → List α
  | push a => l ++ [a]
  | append block => l ++ block
  | pop => l.dropLast
  | trim n => l.take n
  | clear => []
  | poke depth a => if depth < l.length then l.set (l.length - 1 - depth) a else l
  | ensure _ | «at» _ | peek _ => l

/-- The number of items that an operation asks for room for. -/
def request? (l : List α) : StackOp α → Option Nat
  | push _ => some (l.length + 1)
  | append block => some (l.length + block.length)
  | ensure n => some (l.length + n)
  | pop | trim _ | clear | «at» _ | peek _ | poke _ _ => none

/-- The answers to operations on a list. -/
def answers (l : List α) : List (StackOp α) → List (StackAnswer α)
  | [] => []
  | op :: ops => op.answer l :: answers (op.after l) ops

/-- All numbers of items that operations ask for room for. -/
def requests (l : List α) : List (StackOp α) → List Nat
  | [] => []
  | op :: ops => (op.request? l).toList ++ requests (op.after l) ops

end StackOp

/-! ### Stacks -/

namespace Stack

/-- Perform one operation. One that fails leaves the stack as it is. -/
def step (s : Stack α) : StackOp α → StackAnswer α × Stack α
  | .push a => (.done, s.push a)
  | .append block =>
    let (index, s) := s.append block
    (.first index, s)
  | .pop =>
    match pop s with
    | .error e => (.fault e, s)
    | .ok (a, s) => (.item a, s)
  | .trim n =>
    match trim s n with
    | .error e => (.fault e, s)
    | .ok s => (.done, s)
  | .clear => (.done, clear s)
  | .ensure n => (.done, s.ensure n)
  | .at index =>
    match Stack.at s index with
    | .error e => (.fault e, s)
    | .ok a => (.item a, s)
  | .peek depth => (.seen (peek? s depth), s)
  | .poke depth a => (.done, poke s depth a)

/-- Perform operations one after the other. -/
def run (s : Stack α) : List (StackOp α) → List (StackAnswer α) × Stack α
  | [] => ([], s)
  | op :: ops =>
    let (answer, s) := step s op
    let (answers, s) := run s ops
    (answer :: answers, s)

variable {s : Stack α} {l : List α} {op : StackOp α} {ops : List (StackOp α)} {c n : Nat}
  {past : List Nat}

/-- The items of a stack are a list, and its capacity is what the requests made so far led to. -/
structure Keeps (c : Nat) (past : List Nat) (l : List α) (s : Stack α) : Prop where
  array : ∃ g, s.Represents g ∧ g.items.toList = l
  doubled : Doubled c past s.capacity

namespace Keeps

/-- An empty stack keeps the empty list. -/
lemma empty (c : Nat) : Keeps c [] ([] : List α) (.empty c) := by
  have rep := Storage.represents_empty (α := α) c
  exact ⟨⟨_, rep, rfl⟩, rep.capacity ▸ .initial c⟩

/-- The stack has the size of the list. -/
lemma size (kp : Keeps c past l s) : s.size = l.length := by
  obtain ⟨g, rep, rfl⟩ := kp.array
  exact rep.size

/-- The slot after as many others as come before an item holds it. -/
lemma slot (kp : Keeps c past l s) {i : Nat} (lt : i < l.length) : s.slot? (i + 1) = l[i]? := by
  obtain ⟨g, rep, rfl⟩ := kp.array
  rw [rep.slot, Growing.slot?_of_le lt, Growing.get?, Array.getElem?_toList]

/-- Items are known by their places in the list, counted from 1. -/
lemma item (kp : Keeps c past l s) {i : Nat} {a : α} (ha : l[i]? = some a) :
    Stack.item s (i + 1) = .ok a := by
  have lt := (List.getElem?_eq_some_iff.mp ha).1
  rw [Stack.item, kp.slot lt, ha]

/-- Looking down from the top goes through the list from its end. -/
lemma peek (kp : Keeps c past l s) (depth : Nat) : peek? s depth = l.reverse[depth]? := by
  rw [peek?, kp.size]
  by_cases lt : depth < l.length
  · rw [show l.length - depth = l.length - 1 - depth + 1 by omega, kp.slot (by omega),
      List.getElem?_reverse lt]
  · rw [Nat.sub_eq_zero_of_le (Nat.not_lt.mp lt), List.getElem?_eq_none (by simpa using lt)]
    rfl

/-- The valid indices are those of the items. -/
lemma isValid (kp : Keeps c past l s) (i : Nat) : s.isValid i = true ↔ 1 ≤ i ∧ i ≤ l.length := by
  rw [Storage.isValid, Bool.and_eq_true, decide_eq_true_eq, decide_eq_true_eq, kp.size]

/-- Removing items from the top keeps what is left of the list. -/
lemma take (kp : Keeps c past l s) (le : n ≤ l.length) : Keeps c past (l.take n) (s.take n) := by
  have size := kp.size
  obtain ⟨g, rep, rfl⟩ := kp.array
  exact ⟨⟨g.take n, rep.take (size ▸ le), Array.toList_shrink⟩, kp.doubled⟩

/-- Making room is a request and keeps the list. -/
lemma ensure (kp : Keeps c past l s) (small : l.length + n < 2 ^ 63) :
    Keeps c (past ++ [l.length + n]) l (s.ensure n) := by
  obtain ⟨room, doubled⟩ := kp.doubled.capacityFor small
  rw [← kp.size] at room doubled ⊢
  obtain ⟨g, rep, rfl⟩ := kp.array
  exact ⟨⟨g.ensure n, (rep.ensure room).1, rfl⟩, Storage.capacity_ensure s n ▸ doubled⟩

/-- Adding a block is a request and puts it at the end of the list. -/
lemma append (kp : Keeps c past l s) (block : List α)
    (small : l.length + block.length < 2 ^ 63) :
    (s.append block).1 = l.length + 1 ∧
      Keeps c (past ++ [l.length + block.length]) (l ++ block) (s.append block).2 := by
  obtain ⟨room, doubled⟩ := kp.doubled.capacityFor small
  rw [← kp.size] at room doubled ⊢
  obtain ⟨g, rep, rfl⟩ := kp.array
  obtain ⟨first, rep'⟩ := rep.append block room
  refine ⟨Storage.append_fst s block, ⟨g.append block.toArray, rep', Array.toList_append⟩, ?_⟩
  rw [Storage.append_snd, Storage.capacity_fill, Storage.capacity_allocate,
    Storage.capacity_ensure]
  exact doubled

/-- An item is replaced at its place from the end. -/
lemma poke (kp : Keeps c past l s) {depth : Nat} (lt : depth < l.length) (a : α) :
    Keeps c past (l.set (l.length - 1 - depth) a) (poke s depth a) := by
  have place : s.size - depth = l.length - 1 - depth + 1 := by
    rw [kp.size]
    omega
  have le : s.size - depth ≤ s.size := Nat.sub_le _ _
  refine ⟨?_, (Storage.capacity_write _ _ _).symm ▸ kp.doubled⟩
  obtain ⟨g, rep, rfl⟩ := kp.array
  refine ⟨g.set (s.size - depth) a, rep.write le a, ?_⟩
  rw [place, Growing.set, Array.toList_setIfInBounds]

/-- The last item is the one that is taken. -/
lemma pop_eq (kp : Keeps c past l s) {a : α} (ha : l.getLast? = some a) :
    Stack.pop s = .ok (a, s.take (s.size - 1)) := by
  rw [List.getLast?_eq_getElem?] at ha
  have lt := (List.getElem?_eq_some_iff.mp ha).1
  have top : s.size = l.length - 1 + 1 := by
    rw [kp.size]
    omega
  have found := kp.item ha
  rw [← top] at found
  rw [Stack.pop, if_neg (by omega), found]

/-- One operation is answered as on the list and keeps the list that it makes of it. -/
lemma step (kp : Keeps c past l s) (small : ∀ m, op.request? l = some m → m < 2 ^ 63) :
    (Stack.step s op).1 = op.answer l ∧
      Keeps c (past ++ (op.request? l).toList) (op.after l) (Stack.step s op).2 := by
  -- for the operations that ask for no room
  have same : ∀ {l' : List α} {s' : Stack α}, Keeps c past l' s' → Keeps c (past ++ []) l' s' :=
    fun kp => (List.append_nil past).symm ▸ kp
  cases op with
  | push a => exact ⟨rfl, (kp.append [a] (small _ rfl)).2⟩
  | append block =>
    obtain ⟨first, kp'⟩ := kp.append block (small _ rfl)
    exact ⟨congrArg StackAnswer.first first, kp'⟩
  | ensure n => exact ⟨rfl, kp.ensure (small _ rfl)⟩
  | clear => exact ⟨rfl, same (kp.take (Nat.zero_le _))⟩
  | peek depth => exact ⟨congrArg StackAnswer.seen (kp.peek depth), same kp⟩
  | pop =>
    rw [Stack.step, StackOp.answer, StackOp.after, StackOp.request?]
    cases ha : l.getLast? with
    | none =>
      obtain rfl := List.getLast?_eq_none_iff.mp ha
      have empty : s.size = 0 := kp.size
      rw [Stack.pop, if_pos empty]
      exact ⟨rfl, same kp⟩
    | some a =>
      rw [kp.pop_eq ha, List.dropLast_eq_take, kp.size]
      exact ⟨rfl, same (kp.take (Nat.sub_le _ 1))⟩
  | trim n =>
    rw [Stack.step, StackOp.answer, StackOp.after, StackOp.request?, Stack.trim, kp.size]
    by_cases le : n ≤ l.length
    · rw [if_pos le, if_pos le]
      exact ⟨rfl, same (kp.take le)⟩
    · rw [if_neg le, if_neg le, List.take_of_length_le (Nat.le_of_not_le le)]
      exact ⟨rfl, same kp⟩
  | «at» index =>
    rw [Stack.step, StackOp.answer, StackOp.after, StackOp.request?, Stack.at, kp.size]
    by_cases lt : index < l.length
    · have ha := List.getElem?_eq_getElem lt
      rw [if_pos lt, ha, kp.item ha]
      exact ⟨rfl, same kp⟩
    · rw [if_neg lt, List.getElem?_eq_none (Nat.not_lt.mp lt)]
      exact ⟨rfl, same kp⟩
  | poke depth a =>
    rw [Stack.step, StackOp.answer, StackOp.after, StackOp.request?]
    by_cases lt : depth < l.length
    · rw [if_pos lt]
      exact ⟨rfl, same (kp.poke lt a)⟩
    · -- below the bottom there is no slot to write
      have none : s.size - depth = 0 := by
        rw [kp.size]
        omega
      rw [if_neg lt, Stack.poke, none]
      exact ⟨rfl, same kp⟩

/-- Operations in turn are answered as on the list and keep the list that they make of it. -/
lemma run (kp : Keeps c past l s) (small : ∀ m ∈ StackOp.requests l ops, m < 2 ^ 63) :
    (Stack.run s ops).1 = StackOp.answers l ops ∧
      Keeps c (past ++ StackOp.requests l ops) (ops.foldl (fun l op => op.after l) l)
        (Stack.run s ops).2 := by
  induction ops generalizing past l s with
  | nil =>
    rw [StackOp.requests, List.append_nil]
    exact ⟨rfl, kp⟩
  | cons op ops ih =>
    rw [StackOp.requests] at small
    have now : ∀ m, op.request? l = some m → m < 2 ^ 63 := fun m hm => small m (by simp [hm])
    obtain ⟨answer, kp'⟩ := kp.step now
    obtain ⟨answers, kp''⟩ := ih kp' fun m mem => small m (List.mem_append_right _ mem)
    rw [List.append_assoc] at kp''
    refine ⟨?_, kp''⟩
    rw [Stack.run, StackOp.answers, ← answer, ← answers]

end Keeps

/-- **A stack is a list whose last item is on top**, and it takes no more room than it was asked
for. Whatever is done to an empty stack of any initial capacity, it is answered as on the list: an
item is taken, a number of items kept or an item found from the bottom unless the list has none, and
nothing else fails. In the end the relative indices are those from 1 to the length of the list, the
items follow each other there, and the capacity is the initial one doubled as often as it takes to
have room beside slot 0 for every number of items that was ever asked for. -/
theorem run_eq_list (c : Nat) (ops : List (StackOp α))
    (small : ∀ m ∈ StackOp.requests [] ops, m < 2 ^ 63) :
    ∃ s l, run (.empty c) ops = (StackOp.answers [] ops, s) ∧
      l = ops.foldl (fun l op => op.after l) [] ∧
      s.size = l.length ∧
      (∀ i, s.isValid i = true ↔ 1 ≤ i ∧ i ≤ l.length) ∧
      (∀ i < l.length, s.slot? (i + 1) = l[i]?) ∧
      ∃ k, s.capacity = max c 2 * 2 ^ k ∧
        IsLeast {k | ∀ m ∈ StackOp.requests [] ops, m ≤ max c 2 * 2 ^ k - 1} k := by
  obtain ⟨answers, kp⟩ := (Keeps.empty c).run small
  exact ⟨_, _, Prod.ext answers rfl, rfl, kp.size, kp.isValid, fun i => kp.slot, kp.doubled.isLeast⟩

/-- The least room there can be is doubled for a block of three items and again for the fourth,
which is moved with the others; what fails in between changes nothing. -/
theorem run_eq_list_fourItems :
    ∃ s : Stack Nat, run (.empty 0) [.pop, .append [7, 8, 9], .trim 4, .push 5, .poke 3 6, .at 4,
          .at 0, .peek 0, .trim 2, .pop, .ensure 6]
        = ([.fault .empty, .first 1, .fault .keepsTooMany, .done, .done, .fault .aboveTop, .item 6,
          .seen (some 5), .done, .item 8, .done], s) ∧
      s.size = 1 ∧ (∀ i, s.isValid i = true ↔ 1 ≤ i ∧ i ≤ 1) ∧ s.slot? 1 = some 6 ∧
      s.capacity = 8 := by
  obtain ⟨s, l, hr, rfl, size, valid, slot, k, capacity, least⟩ := run_eq_list (α := Nat) 0
    [.pop, .append [7, 8, 9], .trim 4, .push 5, .poke 3 6, .at 4, .at 0, .peek 0, .trim 2, .pop,
      .ensure 6] (by decide)
  have twice : k = 2 := by
    refine least.unique ⟨by decide, ?_⟩
    intro k room
    by_contra lt
    have few : ∀ k < 2, ¬ 7 ≤ max 0 2 * 2 ^ k - 1 := by decide
    exact few k (Nat.not_le.mp lt) (room 7 (by decide))
  exact ⟨s, hr, size, valid, slot 0 (by decide), by rw [capacity, twice]; rfl⟩

end Stack
end TermHeap
