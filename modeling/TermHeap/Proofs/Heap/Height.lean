import Mathlib.Data.Finset.Card
import Mathlib.Logic.Relation

/-!
# The height of a node

How far a relation can be followed from a node. `HeightLe R C n p` says that a walk along `R` from
`p` meets at most `n` nodes of the kind `C`; only nodes of that kind have successors. The two main
statements turn this into a fact about cycles: where the height is bounded nothing leads back to
itself (`HeightLe.acyclic`), and where nothing leads back to itself the height is bounded by the
number of nodes of the kind `C` (`HeightLe.of_acyclic`). References and the parts of terms are both
followed along such relations.
-/

namespace TermHeap
open Relation

variable {α : Type} {R : α → α → Prop} {C : α → Prop}

/-- Nothing that can be reached from a node along `R` leads back to itself. -/
def AcyclicFrom (R : α → α → Prop) (p : α) : Prop := ∀ q, ReflTransGen R p q → ¬ TransGen R q q

/-- A walk along `R` from a node meets at most `n` nodes of the kind `C`. -/
def HeightLe (R : α → α → Prop) (C : α → Prop) : Nat → α → Prop
  | 0, p => ¬ C p
  | n + 1, p => ∀ q, R p q → HeightLe R C n q

/-- The successors of an acyclic node are acyclic. -/
lemma AcyclicFrom.step {p q : α} (ac : AcyclicFrom R p) (st : R p q) : AcyclicFrom R q :=
  fun r rs => ac r (.head st rs)

/-- A node whose successors are acyclic is so too. -/
lemma AcyclicFrom.of_step {p : α} (ac : ∀ q, R p q → AcyclicFrom R q) : AcyclicFrom R p := by
  intro q wk cyc
  obtain rfl | ⟨r, st, wk'⟩ := ReflTransGen.cases_head wk
  · -- a cycle through `p` leads through one of its successors
    obtain ⟨r, st, back⟩ := TransGen.head'_iff.mp cyc
    exact ac r st p back cyc
  · exact ac r st q wk' cyc

/-- Acyclicity is about the nodes that can be reached: another relation that stays within `I` and
agrees with `R` there is acyclic from the same nodes. -/
lemma AcyclicFrom.congr {R' : α → α → Prop} {I : α → Prop} {p : α} (ac : AcyclicFrom R p)
    (ip : I p) (sub : ∀ {q r}, I q → R' q r → R q r ∧ I r) : AcyclicFrom R' p := by
  have walk : ∀ {q}, ReflTransGen R' p q → ReflTransGen R p q ∧ I q := by
    intro q wk
    induction wk with
    | refl => exact ⟨.refl, ip⟩
    | tail _ st ih => exact ⟨ih.1.tail (sub ih.2 st).1, (sub ih.2 st).2⟩
  have cycle : ∀ {q r}, I q → TransGen R' q r → TransGen R q r ∧ I r := by
    intro q r iq wk
    induction wk with
    | single st => exact ⟨.single (sub iq st).1, (sub iq st).2⟩
    | tail _ st ih => exact ⟨ih.1.tail (sub ih.2 st).1, (sub ih.2 st).2⟩
  intro q wk cyc
  exact ac q (walk wk).1 (cycle (walk wk).2 cyc).1

/-- A bound on the height may be raised. -/
lemma HeightLe.mono {m n : Nat} {p : α} (src : ∀ p q, R p q → C p) (ht : HeightLe R C m p)
    (le : m ≤ n) : HeightLe R C n p := by
  induction n generalizing m p with
  | zero =>
    obtain rfl : m = 0 := by omega
    exact ht
  | succ n ih =>
    intro q st
    cases m with
    | zero => exact absurd (src _ _ st) ht
    | succ m => exact ih (ht q st) (by omega)

/-- The nodes that a walk meets are no higher than its start. -/
lemma HeightLe.walk {n : Nat} {p q : α} (src : ∀ p q, R p q → C p) (ht : HeightLe R C n p)
    (wk : ReflTransGen R p q) : HeightLe R C n q := by
  induction wk with
  | refl => exact ht
  | tail _ st ih =>
    cases n with
    | zero => exact absurd (src _ _ st) ih
    | succ n => exact (ih _ st).mono src (by omega)

/-- A node of bounded height does not lead back to itself. -/
lemma HeightLe.not_cycle {n : Nat} {p : α} (src : ∀ p q, R p q → C p) (ht : HeightLe R C n p) :
    ¬ TransGen R p p := by
  intro cyc
  obtain ⟨q, st, back⟩ := TransGen.head'_iff.mp cyc
  induction n generalizing p q with
  | zero => exact ht (src _ _ st)
  | succ n ih =>
    -- the cycle through `p` is also one through its next node `q`, which is less high
    have cyc' : TransGen R q q := TransGen.tail' back st
    obtain ⟨r, st', back'⟩ := TransGen.head'_iff.mp cyc'
    exact ih (ht q st) cyc' r st' back'

/-- Nothing that can be reached from a node of bounded height leads back to itself. -/
theorem HeightLe.acyclic {n : Nat} {p : α} (src : ∀ p q, R p q → C p) (ht : HeightLe R C n p) :
    AcyclicFrom R p :=
  fun _ wk => (ht.walk src wk).not_cycle src

/-- Where nothing leads back to itself, a walk meets each node of the kind `C` at most once. -/
theorem HeightLe.of_acyclic [DecidableEq α] (S : Finset α) {p : α} (src : ∀ p q, R p q → C p)
    (ac : AcyclicFrom R p) (mem : ∀ q, ReflTransGen R p q → C q → q ∈ S) :
    HeightLe R C S.card p := by
  generalize e : S.card = n
  induction n generalizing S p with
  | zero =>
    intro c
    have := mem p .refl c
    simp_all
  | succ n ih =>
    intro q st
    have hp : p ∈ S := mem p .refl (src _ _ st)
    -- `p` cannot be met again, so it is no longer among the nodes to count
    apply ih (S.erase p) (ac.step st)
    · intro r wk c
      refine Finset.mem_erase.mpr ⟨?_, mem r (.head st wk) c⟩
      rintro rfl
      exact ac q (.single st) (TransGen.tail' wk st)
    · rw [Finset.card_erase_of_mem hp, e]
      rfl

end TermHeap
