import Mathlib.Order.Interval.Finset.Nat
import TermHeap.Heap.Basic
import TermHeap.Proofs.Heap.Height

/-!
# Where references end

`Ends h p e` says that the references from `p` lead to `e`, which is no reference to another
address: it is an unbound variable, a cell of another kind, or no cell at all. The step limit of
`deref` never cuts a chain of references short (`deref_of_ends`), and in a heap without cycles of
references every chain has an end (`NoRefCycle.exists_ends`).
-/

namespace TermHeap.Heap
open Relation

/-- The cell at `p` is a reference to the other address `q`. -/
def RefStep (h : Heap) (p q : Addr) : Prop := h.read? p = some (.ref q) ∧ q ≠ p

/-- No chain of references leads back to its start. The cell of an unbound variable, which points
at itself, is no such chain. -/
def NoRefCycle (h : Heap) : Prop := ∀ p, ¬ TransGen h.RefStep p p

/-- The variable at `x` is unbound. -/
def Unbound (h : Heap) (x : Addr) : Prop := h.read? x = some (.ref x)

/-- The references from an address end at another. -/
inductive Ends (h : Heap) : Addr → Addr → Prop where
  | here {p} : (∀ q, ¬ h.RefStep p q) → Ends h p p
  | next {p q e} : h.RefStep p q → Ends h q e → Ends h p e

variable {h : Heap} {p q e e' : Addr} {c : Cell}

/-- An address from which a cell is read is one of the heap. -/
lemma isValid_of_read? (hr : h.read? p = some c) : h.isValid p = true := by
  rw [← isSome_read?, hr]
  rfl

/-- An address from which a cell is read is below the next one. -/
lemma lt_top_of_read? (hr : h.read? p = some c) : p < h.top :=
  Nat.lt_succ_of_le (isValid_iff.mp (isValid_of_read? hr)).2

/-- A cell refers to one address at most. -/
lemma RefStep.unique {q' : Addr} (st : h.RefStep p q) (st' : h.RefStep p q') : q = q' := by
  have e := st.1.symm.trans st'.1
  simpa using e

/-- References have one end at most. -/
lemma Ends.unique (en : h.Ends p e) (en' : h.Ends p e') : e = e' := by
  induction en with
  | here no =>
    cases en' with
    | here => rfl
    | next st _ => exact absurd st (no _)
  | next st _ ih =>
    cases en' with
    | here no => exact absurd st (no _)
    | next st' en' =>
      obtain rfl := st.unique st'
      exact ih en'

/-- There is no reference from the end of references to another address. -/
lemma Ends.last (en : h.Ends p e) : ∀ q, ¬ h.RefStep e q := by
  induction en with
  | here no => exact no
  | next _ _ ih => exact ih

/-- The end of references is its own end. -/
lemma Ends.self (en : h.Ends p e) : h.Ends e e := .here en.last

/-- A reference where references end is an unbound variable. -/
lemma Ends.unbound (en : h.Ends p e) (hr : h.read? e = some (.ref q)) : h.Unbound e := by
  by_cases eq : q = e
  · subst eq
    exact hr
  · exact absurd ⟨hr, eq⟩ (en.last q)

/-- References that end at a cell start at one. -/
lemma Ends.isValid (en : h.Ends p e) (hr : h.read? e = some c) : h.isValid p = true := by
  cases en with
  | here => exact isValid_of_read? hr
  | next st => exact isValid_of_read? st.1

/-- A cell that is no reference is its own end. -/
lemma Ends.of_cell (hr : h.read? p = some c) (nr : ∀ q, c ≠ .ref q) : h.Ends p p := by
  apply Ends.here
  rintro q ⟨st, _⟩
  exact nr q (Option.some.inj (hr.symm.trans st))

/-- An address without a cell is its own end. -/
lemma Ends.of_no_cell (hr : h.read? p = none) : h.Ends p p := by
  apply Ends.here
  rintro q ⟨st, _⟩
  simp [hr] at st

/-- An unbound variable is its own end. -/
lemma Unbound.ends (ub : h.Unbound p) : h.Ends p p := by
  apply Ends.here
  rintro q ⟨st, ne⟩
  have e := ub.symm.trans st
  simp at e
  exact ne e.symm

/-- A chain of references that ends does not lead back to its start. -/
lemma Ends.not_cycle (en : h.Ends p e) : ¬ TransGen h.RefStep p p := by
  induction en with
  | here no =>
    intro cyc
    obtain ⟨q, st, _⟩ := TransGen.head'_iff.mp cyc
    exact no q st
  | next st _ ih =>
    intro cyc
    obtain ⟨q, st', back⟩ := TransGen.head'_iff.mp cyc
    obtain rfl := st.unique st'
    exact ih (TransGen.tail' back st)

/-- The references from every address on a chain end where the chain ends. -/
lemma Ends.walk (en : h.Ends p e) (wk : ReflTransGen h.RefStep p q) : h.Ends q e := by
  induction wk with
  | refl => exact en
  | tail _ st ih =>
    cases ih with
    | here no => exact absurd st (no _)
    | next st' en =>
      obtain rfl := st.unique st'
      exact en

/-- The addresses of the cells, as a finite set. -/
def addrs (h : Heap) : Finset Addr := Finset.Icc 1 h.size

/-- There are as many addresses as cells. -/
lemma card_addrs (h : Heap) : h.addrs.card = h.size := by simp [addrs]

/-- The addresses are those at which there is a cell. -/
lemma mem_addrs : p ∈ h.addrs ↔ h.isValid p = true := by
  rw [addrs, Finset.mem_Icc, isValid_iff]

/-- No chain without a cycle has more references than the heap has cells. -/
lemma height_refs (ac : AcyclicFrom h.RefStep p) :
    HeightLe h.RefStep (fun p => ∃ q, h.RefStep p q) h.size p := by
  rw [← card_addrs]
  apply HeightLe.of_acyclic h.addrs (fun p q st => ⟨q, st⟩) ac
  rintro q _ ⟨r, st⟩
  exact mem_addrs.mpr (isValid_of_read? st.1)

/-- References of bounded number have an end. -/
lemma exists_ends_of_height {n : Nat} (ht : HeightLe h.RefStep (fun p => ∃ q, h.RefStep p q) n p) :
    ∃ e, h.Ends p e := by
  induction n generalizing p with
  | zero => exact ⟨p, .here fun q st => ht ⟨q, st⟩⟩
  | succ n ih =>
    by_cases st : ∃ q, h.RefStep p q
    · obtain ⟨q, st⟩ := st
      obtain ⟨e, en⟩ := ih (ht q st)
      exact ⟨e, .next st en⟩
    · exact ⟨p, .here fun q st' => st ⟨q, st'⟩⟩

/-- Without cycles of references, the references from every address have an end. -/
theorem NoRefCycle.exists_ends (nc : h.NoRefCycle) (p : Addr) : ∃ e, h.Ends p e :=
  exists_ends_of_height (height_refs fun q _ => nc q)

/-- There are no cycles of references where the references from every address have an end. -/
theorem noRefCycle_of_ends (en : ∀ p, ∃ e, h.Ends p e) : h.NoRefCycle := by
  intro p
  obtain ⟨e, en⟩ := en p
  exact en.not_cycle

/-! ### What `deref` finds -/

/-- What following references comes to at their end. -/
def found (h : Heap) (e : Addr) : Except Addr (Addr × Cell) :=
  match h.read? e with
  | some c => .ok (e, c)
  | none => .error e

/-- What is found is the cell at the end. -/
lemma found_eq_ok : h.found p = .ok (e, c) ↔ p = e ∧ h.read? e = some c := by
  cases hr : h.read? p with
  | none =>
    rw [found, hr]
    constructor
    · nofun
    · rintro ⟨rfl, hr'⟩
      cases hr.symm.trans hr'
  | some d =>
    rw [found, hr]
    constructor
    · intro eq
      obtain ⟨rfl, rfl⟩ := Prod.mk.inj (Except.ok.inj eq)
      exact ⟨rfl, hr⟩
    · rintro ⟨rfl, hr'⟩
      rw [Option.some.inj (hr.symm.trans hr')]

/-- No cell is found where there is none at the end. -/
lemma found_eq_error : h.found p = .error e ↔ p = e ∧ h.read? e = none := by
  cases hr : h.read? p with
  | none =>
    rw [found, hr]
    constructor
    · intro eq
      obtain rfl := Except.error.inj eq
      exact ⟨rfl, hr⟩
    · rintro ⟨rfl, _⟩
      rfl
  | some d =>
    rw [found, hr]
    constructor
    · nofun
    · rintro ⟨rfl, hr'⟩
      cases hr.symm.trans hr'

/-- At the end of references, any number of steps is enough. -/
lemma derefWithin_here {n : Nat} (no : ∀ q, ¬ h.RefStep p q) : h.derefWithin n p = h.found p := by
  rw [derefWithin, found]
  split
  · simp_all
  · rename_i q hr
    have eq : q = p := by
      by_contra ne
      exact no q ⟨hr, ne⟩
    simp [hr, eq]
  · simp_all

/-- Within as many steps as there are references, `derefWithin` comes to their end. -/
lemma derefWithin_of_ends {n : Nat} (en : h.Ends p e)
    (ht : HeightLe h.RefStep (fun p => ∃ q, h.RefStep p q) n p) :
    h.derefWithin n p = h.found e := by
  -- along the references, each of which takes one off the height and one off the limit
  induction en generalizing n with
  | here no => exact derefWithin_here no
  | next st _ ih =>
    cases n with
    | zero => exact absurd ⟨_, st⟩ ht
    | succ n =>
      rw [derefWithin, st.1]
      simp only [st.2, if_false]
      exact ih (ht _ st)

/-- The step limit of `deref` cuts no chain of references short. -/
theorem deref_of_ends (en : h.Ends p e) : h.deref p = h.found e :=
  derefWithin_of_ends en (height_refs fun _ wk => (en.walk wk).not_cycle)

/-- What `derefWithin` finds is where the references end. -/
lemma ends_of_derefWithin {n : Nat} (hd : h.derefWithin n p = .ok (e, c)) :
    h.Ends p e ∧ h.read? e = some c := by
  induction n generalizing p with
  | zero =>
    by_cases st : ∃ q, h.RefStep p q
    · obtain ⟨q, hr, ne⟩ := st
      rw [derefWithin, hr] at hd
      simp [ne] at hd
    · have no : ∀ q, ¬ h.RefStep p q := fun q st' => st ⟨q, st'⟩
      rw [derefWithin_here no] at hd
      obtain ⟨rfl, hc⟩ := found_eq_ok.mp hd
      exact ⟨.here no, hc⟩
  | succ n ih =>
    by_cases st : ∃ q, h.RefStep p q
    · obtain ⟨q, hr, ne⟩ := st
      rw [derefWithin, hr] at hd
      simp only [ne, if_false] at hd
      obtain ⟨en, hc⟩ := ih hd
      exact ⟨.next ⟨hr, ne⟩ en, hc⟩
    · have no : ∀ q, ¬ h.RefStep p q := fun q st' => st ⟨q, st'⟩
      rw [derefWithin_here no] at hd
      obtain ⟨rfl, hc⟩ := found_eq_ok.mp hd
      exact ⟨.here no, hc⟩

/-- `deref` finds a cell exactly where the references end. -/
theorem deref_eq_ok_iff : h.deref p = .ok (e, c) ↔ h.Ends p e ∧ h.read? e = some c := by
  constructor
  · exact ends_of_derefWithin
  · rintro ⟨en, hc⟩
    rw [deref_of_ends en]
    exact found_eq_ok.mpr ⟨rfl, hc⟩

/-- There are no cycles of references where `deref` finds a cell from the address of every cell. -/
lemma noRefCycle_of_deref (ok : ∀ i < h.size, (h.deref (i + 1)).toBool = true) : h.NoRefCycle := by
  apply noRefCycle_of_ends
  intro p
  by_cases val : h.isValid p = true
  · obtain ⟨pos, le⟩ := isValid_iff.mp val
    obtain ⟨i, rfl⟩ := Nat.exists_eq_add_of_le' pos
    have hd := ok i le
    cases hr : h.deref (i + 1) with
    | error a =>
      rw [hr] at hd
      cases hd
    | ok found => exact ⟨found.1, (deref_eq_ok_iff.mp hr).1⟩
  · rw [← isSome_read?, Option.not_isSome_iff_eq_none] at val
    exact ⟨p, .of_no_cell val⟩

end TermHeap.Heap
