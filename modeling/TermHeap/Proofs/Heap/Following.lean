import TermHeap.Proofs.Heap.References
import TermHeap.Store.Basic

/-!
# Following references without a limit

Without a limit, following the references from an address comes to a cell, leaves the heap, or goes
on for ever along a cycle (`Settles`, `Leaves`, `Loops`). `deref` tells these apart within as many
steps as there are cells (`Store.deref_exact`): it finds a cell exactly where one is found without
the limit, however long the way, and it gives up exactly where there is no cell to be found.
-/

namespace TermHeap
namespace Heap
open Relation

/-- What is found by following the references from an address for at most `steps` steps, be it a
cell or an address without one; `none` if there are more references to follow. -/
def followWithin (h : Heap) (steps : Nat) (p : Addr) : Option (Except Addr (Addr × Cell)) :=
  match h.read? p with
  | none => some (.error p)
  | some (.ref q) =>
    if q = p then some (.ok (p, .ref q))
    else
      match steps with
      | 0 => none
      | steps + 1 => h.followWithin steps q
  | some c => some (.ok (p, c))

/-- The references from `p` lead to the cell `c` at `e`, which is an unbound variable or no
reference. -/
def Settles (h : Heap) (p e : Addr) (c : Cell) : Prop :=
  ReflTransGen h.RefStep p e ∧ h.read? e = some c ∧ ∀ q, c = .ref q → q = e

/-- The references from `p` lead to `a`, where there is no cell. -/
def Leaves (h : Heap) (p a : Addr) : Prop := ReflTransGen h.RefStep p a ∧ h.read? a = none

/-- The references from `p` lead to a cycle of at least two of them. -/
def Loops (h : Heap) (p : Addr) : Prop :=
  ∃ q, ReflTransGen h.RefStep p q ∧ TransGen h.RefStep q q

variable {h : Heap} {p q a e : Addr} {c : Cell} {n : Nat} {found : Except Addr (Addr × Cell)}

/-! ### Where references end -/

/-- References that end at an address lead there. -/
lemma Ends.reflTransGen (en : h.Ends p e) : ReflTransGen h.RefStep p e := by
  induction en with
  | here _ => exact .refl
  | next st _ ih => exact .head st ih

/-- References end where they lead if they lead no further. -/
lemma ends_of_walk (wk : ReflTransGen h.RefStep p e) (no : ∀ q, ¬ h.RefStep e q) : h.Ends p e := by
  induction wk using ReflTransGen.head_induction_on with
  | refl => exact .here no
  | head st _ ih => exact .next st ih

/-- References settle exactly where they end at a cell. -/
lemma settles_iff : h.Settles p e c ↔ h.Ends p e ∧ h.read? e = some c := by
  constructor
  · rintro ⟨wk, hr, self⟩
    refine ⟨ends_of_walk wk ?_, hr⟩
    rintro q ⟨hr', ne⟩
    exact ne (self q (Option.some.inj (hr.symm.trans hr')))
  · rintro ⟨en, hr⟩
    refine ⟨en.reflTransGen, hr, ?_⟩
    rintro q rfl
    by_contra ne
    exact en.last q ⟨hr, ne⟩

/-- References leave the heap exactly where they end without a cell. -/
lemma leaves_iff : h.Leaves p a ↔ h.Ends p a ∧ h.read? a = none := by
  constructor
  · rintro ⟨wk, hr⟩
    refine ⟨ends_of_walk wk ?_, hr⟩
    rintro q ⟨hr', _⟩
    rw [hr] at hr'
    cases hr'
  · rintro ⟨en, hr⟩
    exact ⟨en.reflTransGen, hr⟩

/-- There are no more references on the way than cells, so only a cycle keeps it from ending. -/
lemma loops_iff : h.Loops p ↔ ∀ e, ¬ h.Ends p e := by
  constructor
  · rintro ⟨q, wk, cyc⟩ e en
    exact (en.walk wk).not_cycle cyc
  · intro no
    -- without a cycle the number of cells bounds that of the references, so they end
    by_contra acyclic
    obtain ⟨e, en⟩ := exists_ends_of_height
      (height_refs fun q wk cyc => acyclic ⟨q, wk, cyc⟩)
    exact no e en

/-! ### Following them -/

/-- Where there is no reference to follow, what is there is found at once. -/
lemma followWithin_here (no : ∀ q, ¬ h.RefStep p q) : h.followWithin n p = some (h.found p) := by
  rw [followWithin.eq_def, Heap.found]
  split
  · simp_all
  · rename_i q hr
    have eq : q = p := by
      by_contra ne
      exact no q ⟨hr, ne⟩
    simp [hr, eq]
  · simp_all

/-- No reference is followed without a step. -/
lemma followWithin_zero (st : h.RefStep p q) : h.followWithin 0 p = none := by
  rw [followWithin, st.1]
  exact if_neg st.2

/-- A reference is followed with one of the steps. -/
lemma followWithin_succ (st : h.RefStep p q) : h.followWithin (n + 1) p = h.followWithin n q := by
  rw [followWithin, st.1]
  exact if_neg st.2

/-- What there is at the end of references is found in some number of steps. -/
lemma exists_followWithin (en : h.Ends p e) : ∃ n, h.followWithin n p = some (h.found e) := by
  induction en with
  | here no => exact ⟨0, followWithin_here no⟩
  | next st _ ih =>
    obtain ⟨n, hf⟩ := ih
    exact ⟨n + 1, (followWithin_succ st).trans hf⟩

/-- What is found in a number of steps is what there is where the references end. -/
lemma ends_of_followWithin (hf : h.followWithin n p = some found) :
    ∃ e, h.Ends p e ∧ found = h.found e := by
  have here : ∀ {n p}, (¬ ∃ q, h.RefStep p q) → h.followWithin n p = some found →
      ∃ e, h.Ends p e ∧ found = h.found e := by
    intro n p no hf
    have no : ∀ q, ¬ h.RefStep p q := not_exists.mp no
    rw [followWithin_here no] at hf
    exact ⟨p, .here no, (Option.some.inj hf).symm⟩
  induction n generalizing p with
  | zero =>
    by_cases more : ∃ q, h.RefStep p q
    · obtain ⟨q, st⟩ := more
      rw [followWithin_zero st] at hf
      cases hf
    · exact here more hf
  | succ n ih =>
    by_cases more : ∃ q, h.RefStep p q
    · obtain ⟨q, st⟩ := more
      rw [followWithin_succ st] at hf
      obtain ⟨e, en, eq⟩ := ih hf
      exact ⟨e, .next st en, eq⟩
    · exact here more hf

/-- Without a limit, what is found is what there is where the references end. -/
lemma exists_followWithin_iff :
    (∃ n, h.followWithin n p = some found) ↔ ∃ e, h.Ends p e ∧ found = h.found e := by
  constructor
  · rintro ⟨n, hf⟩
    exact ends_of_followWithin hf
  · rintro ⟨e, en, rfl⟩
    exact exists_followWithin en

/-- Without a limit, a cell is found exactly where the references settle. -/
lemma exists_followWithin_ok :
    (∃ n, h.followWithin n p = some (.ok (e, c))) ↔ h.Settles p e c := by
  rw [exists_followWithin_iff, settles_iff]
  constructor
  · rintro ⟨q, en, eq⟩
    obtain ⟨rfl, hr⟩ := found_eq_ok.mp eq.symm
    exact ⟨en, hr⟩
  · rintro ⟨en, hr⟩
    exact ⟨e, en, (found_eq_ok.mpr ⟨rfl, hr⟩).symm⟩

/-- An address without a cell is found exactly where they leave the heap. -/
lemma exists_followWithin_error :
    (∃ n, h.followWithin n p = some (.error a)) ↔ h.Leaves p a := by
  rw [exists_followWithin_iff, leaves_iff]
  constructor
  · rintro ⟨q, en, eq⟩
    obtain ⟨rfl, hr⟩ := found_eq_error.mp eq.symm
    exact ⟨en, hr⟩
  · rintro ⟨en, hr⟩
    exact ⟨a, en, (found_eq_error.mpr ⟨rfl, hr⟩).symm⟩

/-- Only along a cycle there are always more references to follow. -/
lemma followWithin_eq_none_iff : (∀ n, h.followWithin n p = none) ↔ h.Loops p := by
  rw [loops_iff]
  constructor
  · intro none e en
    obtain ⟨n, hf⟩ := exists_followWithin en
    cases (none n).symm.trans hf
  · intro no n
    cases hf : h.followWithin n p with
    | none => rfl
    | some found =>
      obtain ⟨e, en, _⟩ := ends_of_followWithin hf
      exact absurd en (no e)

/-! ### Within the limit -/

/-- The cell that `deref` finds is the one at which the references settle. -/
lemma deref_eq_ok_iff_settles : h.deref p = .ok (e, c) ↔ h.Settles p e c := by
  rw [deref_eq_ok_iff, settles_iff]

/-- Where references leave the heap, `deref` gives up at the address without a cell. -/
lemma Leaves.deref (lv : h.Leaves p a) : h.deref p = .error a := by
  obtain ⟨en, hr⟩ := leaves_iff.mp lv
  rw [deref_of_ends en]
  exact found_eq_error.mpr ⟨rfl, hr⟩

/-- The address at which `derefWithin` gives up is one that the references lead to. -/
lemma walk_of_derefWithin (hd : h.derefWithin n p = .error a) : ReflTransGen h.RefStep p a := by
  induction n generalizing p with
  | zero =>
    rw [derefWithin] at hd
    split at hd
    · cases hd
      exact .refl
    · split at hd <;> cases hd
      exact .refl
    · cases hd
  | succ n ih =>
    rw [derefWithin] at hd
    split at hd
    · cases hd
      exact .refl
    · rename_i q hr
      split at hd
      · cases hd
      · rename_i ne
        exact .head ⟨hr, ne⟩ (ih hd)
    · cases hd

/-- What `deref` gives up at is where the references leave the heap, unless they lead to a cycle. -/
lemma leaves_or_loops (hd : h.deref p = .error a) : h.Leaves p a ∨ h.Loops p := by
  by_cases en : ∃ e, h.Ends p e
  · obtain ⟨e, en⟩ := en
    rw [deref_of_ends en] at hd
    obtain ⟨rfl, hr⟩ := found_eq_error.mp hd
    exact .inl (leaves_iff.mpr ⟨en, hr⟩)
  · exact .inr (loops_iff.mpr (not_exists.mp en))

/-- Where references lead to a cycle, `deref` gives up somewhere. -/
lemma Loops.exists_error (lp : h.Loops p) : ∃ a, h.deref p = .error a := by
  cases hd : h.deref p with
  | error a => exact ⟨a, rfl⟩
  | ok found =>
    obtain ⟨en, _⟩ := deref_eq_ok_iff.mp hd
    exact absurd en (loops_iff.mp lp _)

end Heap

namespace Store
open Heap

variable {s : Store} {p e : Addr} {c : Cell}

/-- Resolving an address finds the same cell. -/
lemma resolve_eq_ok_iff : s.resolve p = .ok (e, c) ↔ s.heap.deref p = .ok (e, c) := by
  rw [resolve]
  split
  · rename_i found hd
    rw [hd]
    constructor <;> intro eq <;> rw [Except.ok.inj eq]
  · rename_i hd
    rw [hd]
    constructor <;> intro eq <;> cases eq

/-- **The limit on the number of steps makes no difference** on any heap and at any address. The
cell that `deref` finds is the one where the references end, which is found without the limit too,
and the one to which `resolve` leads. `deref` fails exactly where the references leave the heap,
with the first address that has no cell, and where they lead to a cycle, along which they could be
followed for ever. -/
theorem deref_exact (s : Store) (p : Addr) :
    (∀ e c,
      (s.heap.deref p = .ok (e, c) ↔ s.heap.Settles p e c) ∧
      (s.resolve p = .ok (e, c) ↔ s.heap.Settles p e c) ∧
      ((∃ n, s.heap.followWithin n p = some (.ok (e, c))) ↔ s.heap.Settles p e c)) ∧
    (∀ a,
      (s.heap.deref p = .error a ∧ s.heap.read? a = none ↔ s.heap.Leaves p a) ∧
      ((∃ n, s.heap.followWithin n p = some (.error a)) ↔ s.heap.Leaves p a)) ∧
    ((∀ n, s.heap.followWithin n p = none) ↔ s.heap.Loops p) ∧
    ((∃ a, s.heap.deref p = .error a) ↔ (∃ a, s.heap.Leaves p a) ∨ s.heap.Loops p) := by
  refine ⟨?_, ?_, followWithin_eq_none_iff, ?_⟩
  · intro e c
    exact ⟨deref_eq_ok_iff_settles, resolve_eq_ok_iff.trans deref_eq_ok_iff_settles,
      exists_followWithin_ok⟩
  · intro a
    refine ⟨?_, exists_followWithin_error⟩
    constructor
    · rintro ⟨hd, hr⟩
      exact ⟨walk_of_derefWithin hd, hr⟩
    · intro lv
      exact ⟨lv.deref, lv.2⟩
  · constructor
    · rintro ⟨a, hd⟩
      rcases leaves_or_loops hd with lv | lp
      · exact .inl ⟨a, lv⟩
      · exact .inr lp
    · rintro (⟨a, lv⟩ | lp)
      · exact ⟨a, lv.deref⟩
      · exact lp.exists_error

/-- All three cells are passed, to the last one and beyond it. -/
example :
    (⟨⟨#[.ref 2, .ref 3, .ref 3], [], 4⟩⟩ : Heap).deref 1 = .ok (3, .ref 3) ∧
      (⟨⟨#[.ref 2, .ref 3, .ref 4], [], 4⟩⟩ : Heap).deref 1 = .error 4 := ⟨rfl, rfl⟩

end Store
end TermHeap
