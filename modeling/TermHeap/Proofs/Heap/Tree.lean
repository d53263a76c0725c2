import Mathlib.Data.List.Forall2
import TermHeap.Proofs.Heap.References

/-!
# The trees on a heap

What an address stands for once references are followed. `view` is the first level of it: an
unbound variable, or a head and the addresses of its parts. `unfold` goes down to a given depth and
so describes cyclic structures as well; `Reads h p t` says that the whole tree at `p` is the finite
tree `t`. An address has a finite tree exactly if nothing below it is a part of itself
(`acyclic_iff_reads`), and then the size of the heap bounds its depth.

Every address has a view, also in a damaged heap: what cannot be read is a leaf that says so.
-/

namespace TermHeap
open Relation

/-- What stands at the root of a tree that is no variable. -/
inductive Head where
  | int (value : Int32)
  | sym (name : Symbol)
  | nil
  | record (f : Signature)
  | pair
  /-- A signature where a value should be. -/
  | sig (f : Signature)
  /-- A record in the cell at `cell` that points at no signature. It is like no other record. -/
  | badRecord (cell : Addr)
  /-- There is no cell at the address. -/
  | missing (a : Addr)
  /-- The tree was read no further. -/
  | cut
deriving DecidableEq, Repr

/-- Whether a head is one of those that have parts. -/
def Head.isCompound : Head → Bool
  | .record _ | .pair => true
  | _ => false

/-- The first level of what an address stands for. -/
inductive View where
  | var (x : Addr)
  | node (l : Head) (ps : List Addr)
deriving DecidableEq, Repr

/-- A finite tree. Its variables are known by the addresses of their cells. -/
inductive Tree where
  | var (x : Addr)
  | node (l : Head) (ts : List Tree)

/-- Entries at the same place are paired. -/
lemma getElem_mem_zip {α β : Type} {xs : List α} {ys : List β} {i : Nat} (hx : i < xs.length)
    (hy : i < ys.length) : (xs[i], ys[i]) ∈ xs.zip ys := by
  rw [List.mem_iff_getElem]
  exact ⟨i, by simp [hx, hy], by simp⟩

namespace Tree

/-- Induction over a tree and its direct subtrees. -/
@[elab_as_elim, induction_eliminator]
lemma induct {P : Tree → Prop} (var : ∀ x, P (.var x))
    (node : ∀ l ts, (∀ t ∈ ts, P t) → P (.node l ts)) : ∀ t, P t
  | .var x => var x
  | .node l ts => node l ts fun t _ => induct var node t

/-- Replace the variables of a tree. -/
def subst (σ : Addr → Tree) : Tree → Tree
  | .var x => σ x
  | .node l ts => .node l (ts.map (subst σ))

/-- Rename the variables of a tree. -/
def rename (ξ : Addr → Addr) (t : Tree) : Tree := t.subst fun x => .var (ξ x)

@[simp] lemma subst_var (σ : Addr → Tree) (x : Addr) : (Tree.var x).subst σ = σ x := by
  rw [subst]

@[simp] lemma subst_node (σ : Addr → Tree) (l : Head) (ts : List Tree) :
    (Tree.node l ts).subst σ = .node l (ts.map (subst σ)) := by
  rw [subst]

@[simp] lemma rename_var (ξ : Addr → Addr) (x : Addr) : (Tree.var x).rename ξ = .var (ξ x) := by
  rw [rename, subst_var]

@[simp] lemma rename_node (ξ : Addr → Addr) (l : Head) (ts : List Tree) :
    (Tree.node l ts).rename ξ = .node l (ts.map (rename ξ)) := by
  rw [rename, subst_node]
  rfl

end Tree

namespace Heap

/-! ### The first level -/

/-- What the cell `c` at `e` stands for, if it is where references end. -/
def cellView (h : Heap) (e : Addr) : Cell → View
  | .ref _ => .var e
  | .int value => .node (.int value) []
  | .sym name => .node (.sym name) []
  | .nil => .node .nil []
  | .sig f => .node (.sig f) []
  | .lst car => .node .pair [car, car + 1]
  | .rcd target =>
    match h.signature? target with
    | some f => .node (.record f) (List.range' (target + 1) f.arity)
    | none => .node (.badRecord e) []

/-- The first level of what an address stands for. -/
def view (h : Heap) (p : Addr) : View :=
  match h.deref p with
  | .ok (e, c) => h.cellView e c
  | .error a => .node (.missing a) []

/-- The address `q` is one of the parts of the term at `p`. -/
def Part (h : Heap) (p q : Addr) : Prop := ∃ l ps, h.view p = .node l ps ∧ q ∈ ps

/-- The term at an address is a record or a list pair. -/
def Compound (h : Heap) (p : Addr) : Prop := ∃ l ps, h.view p = .node l ps ∧ l.isCompound = true

/-- Nothing below an address is a part of itself. -/
def Acyclic (h : Heap) (p : Addr) : Prop := AcyclicFrom h.Part p

variable {h : Heap} {p q e x : Addr} {c : Cell} {l : Head} {ps : List Addr} {t : Tree}

/-- A signature is found where a signature cell is. -/
lemma signature?_eq_some {f : Signature} : h.signature? p = some f ↔ h.read? p = some (.sig f) := by
  rw [signature?]
  split <;> simp_all

/-- An address stands for what the cell that `deref` finds does. -/
lemma view_of_deref (hd : h.deref p = .ok (e, c)) : h.view p = h.cellView e c := by
  rw [view, hd]

/-- An address stands for what the cell where its references end does. -/
lemma view_of_ends (en : h.Ends p e) (hr : h.read? e = some c) : h.view p = h.cellView e c :=
  view_of_deref (deref_eq_ok_iff.mpr ⟨en, hr⟩)

/-- The arguments of a record are parts of it. -/
lemma part_of_record {f : Signature} {i : Nat} (hd : h.deref p = .ok (e, .rcd q))
    (hf : h.read? q = some (.sig f)) (hi : i < f.arity) : h.Part p (q + 1 + i) := by
  refine ⟨.record f, List.range' (q + 1) f.arity, ?_, List.mem_range'_1.mpr (by omega)⟩
  rw [view_of_deref hd, cellView, signature?_eq_some.mpr hf]

/-- The head and the tail of a list pair are parts of it. -/
lemma part_of_pair (hd : h.deref p = .ok (e, .lst q)) : h.Part p q ∧ h.Part p (q + 1) := by
  have hv := view_of_deref hd
  exact ⟨⟨_, _, hv, by simp⟩, ⟨_, _, hv, by simp⟩⟩

/-- References that lead to no cell stand for a missing one. -/
lemma view_of_no_cell (en : h.Ends p e) (hr : h.read? e = none) :
    h.view p = .node (.missing e) [] := by
  rw [view, deref_of_ends en, found, hr]

/-- An address stands for what the end of its references does. -/
lemma view_eq_of_ends (en : h.Ends p e) : h.view p = h.view e := by
  rw [view, view, deref_of_ends en, deref_of_ends en.self]

/-- Only a reference stands for a variable, and that variable is unbound. -/
lemma view_eq_var_iff : h.view p = .var x ↔ h.Ends p x ∧ h.Unbound x := by
  constructor
  · intro hv
    rw [view] at hv
    split at hv
    · rename_i e c hd
      obtain ⟨en, hr⟩ := deref_eq_ok_iff.mp hd
      cases c with
      | ref q =>
        obtain rfl : e = x := by simpa [cellView] using hv
        exact ⟨en, en.unbound hr⟩
      | rcd target =>
        simp only [cellView] at hv
        split at hv <;> cases hv
      | _ => cases hv
    · cases hv
  · rintro ⟨en, ub⟩
    rw [view_of_ends en ub, cellView]

/-- Only heads of records and list pairs have parts. -/
lemma isCompound_of_mem (hv : h.view p = .node l ps) (mem : q ∈ ps) : l.isCompound = true := by
  rw [view] at hv
  split at hv
  · rename_i e c _
    cases c with
    | rcd target =>
      simp only [cellView] at hv
      split at hv <;> cases hv
      · rfl
      · simp at mem
    | lst car =>
      cases hv
      rfl
    | ref q => cases hv
    | _ =>
      cases hv
      simp at mem
  · cases hv
    simp at mem

/-- Only records and list pairs have parts. -/
lemma Part.compound (pt : h.Part p q) : h.Compound p := by
  obtain ⟨l, ps, hv, mem⟩ := pt
  exact ⟨l, ps, hv, isCompound_of_mem hv mem⟩

/-- There is a cell at the address of a record or a list pair. -/
lemma Compound.isValid (cp : h.Compound p) : h.isValid p = true := by
  obtain ⟨l, ps, hv, hl⟩ := cp
  by_contra nv
  have hn : h.read? p = none := by
    rw [← Option.not_isSome_iff_eq_none, isSome_read?]
    exact nv
  rw [view_of_no_cell (.of_no_cell hn) hn] at hv
  cases hv
  cases hl

/-! ### Trees to a depth -/

/-- The tree at an address, down to a depth. -/
def unfold (h : Heap) : Nat → Addr → Tree
  | 0, _ => .node .cut []
  | n + 1, p =>
    match h.view p with
    | .var x => .var x
    | .node l ps => .node l (ps.map (h.unfold n))

/-- The whole tree at an address, if it is finite: no finite tree is deeper. -/
def tree (h : Heap) (p : Addr) : Tree := h.unfold (h.size + 1) p

/-- A variable is read at every depth above zero. -/
lemma unfold_var (hv : h.view p = .var x) (n : Nat) : h.unfold (n + 1) p = .var x := by
  rw [unfold, hv]

/-- The parts of a term are read one level deeper than its head. -/
lemma unfold_node (hv : h.view p = .node l ps) (n : Nat) :
    h.unfold (n + 1) p = .node l (ps.map (h.unfold n)) := by
  rw [unfold, hv]

/-- Following references takes no depth. -/
lemma unfold_of_ends (en : h.Ends p e) (n : Nat) : h.unfold n p = h.unfold n e := by
  cases n with
  | zero => rfl
  | succ n => rw [unfold, unfold, view_eq_of_ends en]

/-! ### Finite trees -/

/-- The tree at an address is the finite tree `t`. -/
inductive Reads (h : Heap) : Addr → Tree → Prop where
  | var {p x : Addr} : h.view p = .var x → Reads h p (.var x)
  | node {p : Addr} {l : Head} {ps : List Addr} {ts : List Tree} : h.view p = .node l ps →
      ps.length = ts.length → (∀ q t, (q, t) ∈ ps.zip ts → Reads h q t) → Reads h p (.node l ts)

/-- The tree of a variable is the variable. -/
lemma Reads.of_var (rd : h.Reads p t) (hv : h.view p = .var x) : t = .var x := by
  cases rd with
  | var hv' =>
    rw [hv] at hv'
    cases hv'
    rfl
  | node hv' =>
    rw [hv] at hv'
    cases hv'

/-- The tree of any other term has its head and the trees of its parts. -/
lemma Reads.of_node (rd : h.Reads p t) (hv : h.view p = .node l ps) :
    ∃ ts, t = .node l ts ∧ List.Forall₂ h.Reads ps ts := by
  cases rd with
  | var hv' =>
    rw [hv] at hv'
    cases hv'
  | node hv' len ih =>
    rw [hv] at hv'
    cases hv'
    exact ⟨_, rfl, List.forall₂_iff_zip.mpr ⟨len, ih _ _⟩⟩

/-- Trees of the parts make up a tree of the term. -/
lemma Reads.of_parts {ts : List Tree} (hv : h.view p = .node l ps)
    (rds : List.Forall₂ h.Reads ps ts) : h.Reads p (.node l ts) := by
  obtain ⟨len, rd⟩ := List.forall₂_iff_zip.mp rds
  exact .node hv len fun _ _ => rd

/-- A head without parts is a tree. -/
lemma Reads.leaf (hv : h.view p = .node l []) : h.Reads p (.node l []) := .of_parts hv .nil

/-- Addresses that stand for the same have the same finite trees. -/
lemma Reads.congr {h' : Heap} (rd : h.Reads p t) (hv : h'.view q = h.view p)
    (rds : ∀ r u, h.Part p r → h.Reads r u → h'.Reads r u) : h'.Reads q t := by
  cases rd with
  | var hv' => exact .var (hv.trans hv')
  | node hv' len ih =>
    refine .node (hv.trans hv') len fun r u mem => ?_
    exact rds r u ⟨_, _, hv', (List.of_mem_zip mem).1⟩ (ih r u mem)

/-- The tree at an address is also at the end of its references. -/
lemma Reads.ends (rd : h.Reads p t) (en : h.Ends p e) : h.Reads e t :=
  rd.congr (view_eq_of_ends en).symm fun _ _ _ rd => rd

/-- Going deep enough, the whole of a finite tree is read. -/
lemma Reads.unfold_eq (rd : h.Reads p t) {n : Nat} (le : sizeOf t ≤ n) : h.unfold n p = t := by
  induction rd generalizing n with
  | @var p x hv =>
    cases n with
    | zero => simp at le
    | succ n => exact unfold_var hv n
  | @node p l ps ts hv len _ ih =>
    cases n with
    | zero => simp at le
    | succ n =>
      rw [unfold_node hv]
      congr 1
      apply List.ext_getElem (by simp [len])
      intro i hi _
      simp only [List.getElem_map]
      have hp : i < ps.length := by simpa using hi
      have ht : i < ts.length := by omega
      apply ih _ _ (getElem_mem_zip hp ht)
      have := List.sizeOf_lt_of_mem (List.getElem_mem ht)
      simp only [Tree.node.sizeOf_spec] at le
      omega

/-- There is one finite tree at an address at most. -/
lemma Reads.unique {u : Tree} (rd : h.Reads p t) (rd' : h.Reads p u) : t = u := by
  -- both are what is read at a depth that is enough for either
  have e₁ := rd.unfold_eq (Nat.le_add_right (sizeOf t) (sizeOf u))
  have e₂ := rd'.unfold_eq (Nat.le_add_left (sizeOf u) (sizeOf t))
  exact e₁.symm.trans e₂

/-- Finite trees are the same if they agree at every depth. -/
lemma Reads.eq_of_unfold {u : Tree} (rd : h.Reads p t) (rd' : h.Reads q u)
    (eq : ∀ n, h.unfold n p = h.unfold n q) : t = u := by
  have e₁ := rd.unfold_eq (Nat.le_add_right (sizeOf t) (sizeOf u))
  have e₂ := rd'.unfold_eq (Nat.le_add_left (sizeOf u) (sizeOf t))
  exact e₁.symm.trans ((eq _).trans e₂)

/-! ### Finite trees and cycles -/

/-- A walk down from an address meets at most `n` records and list pairs. -/
abbrev DepthLe (h : Heap) (n : Nat) (p : Addr) : Prop := HeightLe h.Part h.Compound n p

/-- What has parts is a record or a list pair, as a bound on the depth of terms needs it. -/
lemma part_compound (p q : Addr) (pt : h.Part p q) : h.Compound p := pt.compound

/-- Where nothing is a part of itself, no walk down meets more terms than there are cells. -/
theorem Acyclic.depthLe (ac : h.Acyclic p) : h.DepthLe h.size p := by
  rw [← card_addrs]
  apply HeightLe.of_acyclic h.addrs part_compound ac
  intro q _ cp
  exact mem_addrs.mpr cp.isValid

/-- A term of bounded depth has a finite tree, which is read at the next depth. -/
lemma reads_of_depthLe {n : Nat} (dp : h.DepthLe n p) : h.Reads p (h.unfold (n + 1) p) := by
  induction n generalizing p with
  | zero =>
    cases hv : h.view p with
    | var x =>
      rw [unfold_var hv]
      exact .var hv
    | node l ps =>
      -- a part would make the term compound
      have nil : ps = [] := by
        apply List.eq_nil_iff_forall_not_mem.mpr
        intro q mem
        exact dp ⟨l, ps, hv, isCompound_of_mem hv mem⟩
      subst nil
      rw [unfold_node hv]
      exact .leaf hv
  | succ n ih =>
    cases hv : h.view p with
    | var x =>
      rw [unfold_var hv]
      exact .var hv
    | node l ps =>
      rw [unfold_node hv]
      apply Reads.of_parts hv
      rw [List.forall₂_map_right_iff, List.forall₂_same]
      intro q mem
      exact ih (dp q ⟨l, ps, hv, mem⟩)

/-- A term with a finite tree has bounded depth. -/
lemma Reads.depthLe (rd : h.Reads p t) : h.DepthLe (sizeOf t) p := by
  induction rd with
  | @var p x hv =>
    have leaf : h.DepthLe 0 p := by
      rintro ⟨l, ps, hv', _⟩
      rw [hv] at hv'
      cases hv'
    exact leaf.mono part_compound (Nat.zero_le _)
  | @node p l ps ts hv len _ ih =>
    have pos : sizeOf (Tree.node l ts) = (sizeOf l + sizeOf ts) + 1 := by
      simp only [Tree.node.sizeOf_spec]
      omega
    rw [pos]
    rintro q ⟨l', ps', hv', mem⟩
    rw [hv] at hv'
    cases hv'
    obtain ⟨i, hi, rfl⟩ := List.mem_iff_getElem.mp mem
    have ht : i < ts.length := by omega
    apply (ih _ _ (getElem_mem_zip hi ht)).mono part_compound
    have := List.sizeOf_lt_of_mem (List.getElem_mem ht)
    omega

/-- An address has a finite tree exactly if nothing below it is a part of itself. -/
theorem acyclic_iff_reads : h.Acyclic p ↔ ∃ t, h.Reads p t := by
  constructor
  · intro ac
    exact ⟨_, reads_of_depthLe ac.depthLe⟩
  · rintro ⟨t, rd⟩
    exact rd.depthLe.acyclic part_compound

/-- The finite tree at an address is the one read to the depth of the whole heap. -/
theorem Reads.tree_eq (rd : h.Reads p t) : h.tree p = t :=
  (reads_of_depthLe (acyclic_iff_reads.mpr ⟨t, rd⟩).depthLe).unique rd

/-! ### Checking that trees are finite -/

/-- Whether a walk down from an address meets at most `n` records and list pairs. -/
def depthWithin (h : Heap) : Nat → Addr → Bool
  | 0, p =>
    match h.view p with
    | .var _ => true
    | .node l _ => !l.isCompound
  | n + 1, p =>
    match h.view p with
    | .var _ => true
    | .node _ ps => ps.all (h.depthWithin n)

/-- A term that passes the check has that depth at most. -/
lemma depthLe_of_depthWithin {n : Nat} (hw : h.depthWithin n p = true) : h.DepthLe n p := by
  induction n generalizing p with
  | zero =>
    rintro ⟨l, ps, hv, hl⟩
    rw [depthWithin, hv] at hw
    simp [hl] at hw
  | succ n ih =>
    rintro q ⟨l, ps, hv, mem⟩
    rw [depthWithin, hv] at hw
    exact ih (List.all_eq_true.mp hw q mem)

/-- Whether the terms at all addresses of a heap have finite trees. -/
def allFinite (h : Heap) : Bool :=
  (List.range h.size).all fun i => h.depthWithin h.size (i + 1)

/-- A heap that passes the check has no cyclic term. -/
theorem acyclic_of_allFinite (hf : h.allFinite = true) (p : Addr) : h.Acyclic p := by
  by_cases val : h.isValid p = true
  · obtain ⟨pos, le⟩ := isValid_iff.mp val
    obtain ⟨i, rfl⟩ := Nat.exists_eq_add_of_le' pos
    have within := List.all_eq_true.mp hf i (List.mem_range.mpr le)
    exact (depthLe_of_depthWithin within).acyclic part_compound
  · have leaf : h.DepthLe 0 p := fun cp => val cp.isValid
    exact leaf.acyclic part_compound

end Heap
end TermHeap
