import Mathlib.Data.Set.Function
import TermHeap.Proofs.Unify.Solution

/-!
# The order and the direction of comparison do not matter

Two runs on copies of one heap, in different orders or with the two addresses exchanged, visit
different pairs, bind variables in different directions and leave different heaps. They agree
nevertheless: with equality of trees in the final heap of a
successful run each run has a solution for the other (`run_within`), so neither clashes if the
other succeeds, and what the final heaps stand for differs by a renaming of unbound variables only
(`equivalent_of_solves`). Nothing is assumed about the cells but that references have an end, so
this covers damaged and cyclic terms.
-/

namespace TermHeap

namespace Heap

/-- Two heaps stand for the same trees at every address, up to a bijective renaming of their
unbound variables. -/
def Equivalent (h₁ h₂ : Heap) : Prop :=
  ∃ ξ : Addr → Addr, Set.BijOn ξ {x | h₁.Unbound x} {y | h₂.Unbound y} ∧
    ∀ n p, (h₁.unfold n p).rename ξ = h₂.unfold n p

/-- Where the references from an address end. -/
def endOf (h : Heap) (p : Addr) : Addr :=
  match h.deref p with
  | .ok (e, _) => e
  | .error e => e

variable {h h₁ h₂ : Heap} {p q e x y : Addr}

/-- References have no other end. -/
lemma endOf_eq (en : h.Ends p e) : h.endOf p = e := by
  rw [endOf, deref_of_ends en, found]
  cases h.read? e with
  | some c => rfl
  | none => rfl

/-- An unbound variable is equal to no term and to no other variable. -/
lemma SameTree.eq_of_unbound (st : h.SameTree x y) (ux : h.Unbound x) (uy : h.Unbound y) :
    x = y := by
  have e := st 1
  rw [unfold_var (view_eq_var_iff.mpr ⟨ux.ends, ux⟩),
    unfold_var (view_eq_var_iff.mpr ⟨uy.ends, uy⟩)] at e
  exact Tree.var.inj e

/-- A variable that one heap leaves unbound leads to an unbound variable in the other. -/
lemma unbound_endOf (bd₁ : Binds h h₁) (bd₂ : Binds h h₂) (nc₂ : h₂.NoRefCycle)
    (sol : h₂.Solves h₁.SameTree) (ub : h₁.Unbound x) :
    h₂.Ends x (h₂.endOf x) ∧ h₂.Unbound (h₂.endOf x) := by
  obtain ⟨y, en⟩ := nc₂.exists_ends x
  rw [endOf_eq en]
  refine ⟨en, ?_⟩
  cases hv : h₂.view x with
  | var z =>
    obtain ⟨ez, uz⟩ := view_eq_var_iff.mp hv
    obtain rfl := ez.unique en
    exact uz
  | node l ps =>
    -- the term at `y` was there from the start, so in `h₁` the variable `x` would be equal to it
    obtain ⟨ey, hy⟩ := bd₂.view_end en hv
    have st : h₁.SameTree x y := sol.ends (q := x) (fun _ => rfl) en
    have e := st 1
    rw [unfold_var (view_eq_var_iff.mpr ⟨ub.ends, ub⟩), unfold_node (bd₁.view_node ey hy)] at e
    cases e

/-- Heaps that solve each other stand for the same. -/
theorem equivalent_of_solves (bd₁ : Binds h h₁) (bd₂ : Binds h h₂) (nc₁ : h₁.NoRefCycle)
    (nc₂ : h₂.NoRefCycle) (s₁ : h₁.Solves h₂.SameTree) (s₂ : h₂.Solves h₁.SameTree) :
    h₁.Equivalent h₂ := by
  refine ⟨h₂.endOf, ⟨?_, ?_, ?_⟩, ?_⟩
  · intro x ub
    exact (unbound_endOf bd₁ bd₂ nc₂ s₂ ub).2
  · intro x ux x' ux' e
    obtain ⟨en, _⟩ := unbound_endOf bd₁ bd₂ nc₂ s₂ ux
    obtain ⟨en', _⟩ := unbound_endOf bd₁ bd₂ nc₂ s₂ ux'
    have st : h₁.SameTree x (h₂.endOf x) := s₂.ends (q := x) (fun _ => rfl) en
    have st' : h₁.SameTree x' (h₂.endOf x') := s₂.ends (q := x') (fun _ => rfl) en'
    rw [← e] at st'
    exact (st.trans st'.symm).eq_of_unbound ux ux'
  · intro y uy
    obtain ⟨en, ux⟩ := unbound_endOf bd₂ bd₁ nc₁ s₁ uy
    obtain ⟨en', uy'⟩ := unbound_endOf bd₁ bd₂ nc₂ s₂ ux
    have st : h₂.SameTree y (h₁.endOf y) := s₁.ends (q := y) (fun _ => rfl) en
    exact ⟨h₁.endOf y, ux, ((st.trans (.of_ends en')).eq_of_unbound uy uy').symm⟩
  · intro n
    induction n with
    | zero =>
      intro p
      simp [unfold]
    | succ n ih =>
      intro p
      obtain ⟨e, en⟩ := nc₁.exists_ends p
      have st : h₂.SameTree p e := s₁.ends (q := p) (fun _ => rfl) en
      rw [st (n + 1)]
      cases hv : h₁.view p with
      | var x =>
        obtain ⟨ex, ux⟩ := view_eq_var_iff.mp hv
        obtain rfl := ex.unique en
        rw [unfold_var hv, unfold_var (view_eq_var_iff.mpr (unbound_endOf bd₁ bd₂ nc₂ s₂ ux)),
          Tree.rename_var]
      | node l ps =>
        -- the term is at the same address in both heaps, so its parts are too
        obtain ⟨ee, he⟩ := bd₁.view_end en hv
        rw [unfold_node hv, unfold_node (bd₂.view_node ee he), Tree.rename_node, List.map_map]
        congr 1
        exact List.map_congr_left fun q _ => ih q

end Heap

namespace Unifier

variable {h h₁ h₂ : Heap} {a b c d : Addr} {u₁ u₂ : Unifier} {o₁ o₂ : Order} {f₁ f₂ : Nat}

/-- A pair, in either direction, is made equal by a run that succeeds, and this is a solution for
the heap that the run started from. -/
lemma run_solves (nc : h.NoRefCycle) (rn : run o₁ f₁ (start a b) h = .ok (u₁, h₁))
    (ok : u₁.status = .success) (dir : (c, d) = (a, b) ∨ (c, d) = (b, a)) :
    h.Solves h₁.SameTree ∧ (start c d).Within h₁.SameTree := by
  obtain ⟨bd, nc₁⟩ := run_binds rn
  have sol := bd.solves_sameTree nc (nc₁ nc)
  have st : h₁.SameTree a b := run_sameTree nc rn ok (a, b) (by simp [start])
  refine ⟨sol, within_start ?_⟩
  rcases dir with e | e
  · cases e
    exact st
  · cases e
    exact st.symm

/-- A run succeeds if another one succeeds on the same pair. -/
lemma status_eq_success (nc : h.NoRefCycle) (rn₁ : run o₁ f₁ (start a b) h = .ok (u₁, h₁))
    (ok : u₁.status = .success) (dir : (c, d) = (a, b) ∨ (c, d) = (b, a))
    (rn₂ : run o₂ f₂ (start c d) h = .ok (u₂, h₂)) (ended : u₂.status ≠ .running) :
    u₂.status = .success := by
  obtain ⟨sol, wi⟩ := run_solves nc rn₁ ok dir
  have nf := (run_within sol nc wi rn₂).2.status_ne
  cases hs : u₂.status with
  | running => exact absurd hs ended
  | success => rfl
  | failure => exact absurd hs nf

/-- Runs on the same pair, in either direction and in any order of comparison, come to the same
result, and if they succeed they leave equivalent heaps. -/
theorem runs_agree (nc : h.NoRefCycle) (dir : (c, d) = (a, b) ∨ (c, d) = (b, a))
    (rn₁ : run o₁ f₁ (start a b) h = .ok (u₁, h₁)) (ended₁ : u₁.status ≠ .running)
    (rn₂ : run o₂ f₂ (start c d) h = .ok (u₂, h₂)) (ended₂ : u₂.status ≠ .running) :
    u₁.status = u₂.status ∧ (u₁.status = .success → h₁.Equivalent h₂) := by
  have dir' : (a, b) = (c, d) ∨ (a, b) = (d, c) := by
    rcases dir with e | e
    · exact .inl e.symm
    · cases e
      exact .inr rfl
  have both : u₁.status = .success ↔ u₂.status = .success :=
    ⟨fun ok => status_eq_success nc rn₁ ok dir rn₂ ended₂,
      fun ok => status_eq_success nc rn₂ ok dir' rn₁ ended₁⟩
  constructor
  · cases h₁ : u₁.status <;> cases h₂ : u₂.status <;> simp_all
  · intro ok
    obtain ⟨bd₁, nc₁⟩ := run_binds rn₁
    obtain ⟨bd₂, nc₂⟩ := run_binds rn₂
    obtain ⟨sol₁, wi₁⟩ := run_solves nc rn₁ ok dir
    obtain ⟨sol₂, wi₂⟩ := run_solves nc rn₂ (both.mp ok) dir'
    exact Heap.equivalent_of_solves bd₁ bd₂ (nc₁ nc) (nc₂ nc) (run_within sol₂ nc wi₂ rn₁).1
      (run_within sol₁ nc wi₁ rn₂).1

/-- **The two orders of comparison agree.** On copies of a heap without cycles of references, with
any cells in it, comparing parts from the first to the last and from the last to the first come to
the same result whenever both end, and if they succeed the heaps that they leave stand for the same
trees, up to the choice of unbound variables. -/
theorem orders_agree {s s₁ s₂ : Store} {v : Int} {log log₁ log₂ : Log}
    (nc : s.heap.NoRefCycle)
    (rn₁ : runLogged .firstToLast v f₁ (start a b) s log = .ok (u₁, log₁, s₁))
    (ended₁ : u₁.status ≠ .running)
    (rn₂ : runLogged .lastToFirst v f₂ (start a b) s log = .ok (u₂, log₂, s₂))
    (ended₂ : u₂.status ≠ .running) :
    u₁.status = u₂.status ∧ (u₁.status = .success → s₁.heap.Equivalent s₂.heap) :=
  runs_agree nc (.inl rfl) (runLogged_run rn₁).1 ended₁ (runLogged_run rn₂).1 ended₂

/-- The lists `[X | Y]` and `[Y | T]` with the endless list `T = [Y | T]`, beside a record that
points at no signature. -/
def endlessLists : Store :=
  { Store.empty 8 with
    heap := ⟨⟨#[.lst 3, .lst 5, .ref 3, .ref 4, .ref 4, .lst 5, .rcd 4], [], 8⟩⟩ }

/-- Both orders unify the lists `[X | Y]` and `[Y | T]` to the same effect. -/
theorem orders_agree_endlessLists :
    ∃ u₁ u₂ log₁ log₂ s₁ s₂,
      runLogged .firstToLast 1 8 (start 1 2) endlessLists .empty = .ok (u₁, log₁, s₁) ∧
      runLogged .lastToFirst 1 8 (start 1 2) endlessLists .empty = .ok (u₂, log₂, s₂) ∧
      u₁.status = u₂.status ∧ s₁.heap.Equivalent s₂.heap := by
  have nc : endlessLists.heap.NoRefCycle := Heap.noRefCycle_of_deref (by decide)
  have rn₁ : runLogged .firstToLast 1 8 (start 1 2) endlessLists .empty = .ok (_, _, _) := rfl
  have rn₂ : runLogged .lastToFirst 1 8 (start 1 2) endlessLists .empty = .ok (_, _, _) := rfl
  obtain ⟨same, equiv⟩ := orders_agree nc rn₁ nofun rn₂ nofun
  exact ⟨_, _, _, _, _, _, rn₁, rn₂, same, equiv rfl⟩

/-- **Unification is symmetric.** In either order of comparison, making the terms at `a` and `b`
equal and making those at `b` and `a` equal on copies of a heap without cycles of references come to
the same result whenever both end, and if they succeed the heaps that they leave stand for the same
trees, up to the choice of unbound variables. The first of two unbound variables is bound to the
second, so the heaps themselves differ. -/
theorem run_comm {order : Order} {s s₁ s₂ : Store} {v : Int} {log log₁ log₂ : Log}
    (nc : s.heap.NoRefCycle)
    (rn₁ : runLogged order v f₁ (start a b) s log = .ok (u₁, log₁, s₁))
    (ended₁ : u₁.status ≠ .running)
    (rn₂ : runLogged order v f₂ (start b a) s log = .ok (u₂, log₂, s₂))
    (ended₂ : u₂.status ≠ .running) :
    u₁.status = u₂.status ∧ (u₁.status = .success → s₁.heap.Equivalent s₂.heap) :=
  runs_agree nc (.inr rfl) (runLogged_run rn₁).1 ended₁ (runLogged_run rn₂).1 ended₂

/-- The lists `[[X | X] | Z]` and `[[Y | Y] | [X | Z]]`, of which no heap that unifies them has a
finite tree. -/
def crossedLists : Store :=
  { Store.empty 16 with
    heap := ⟨⟨#[.lst 3, .lst 5, .lst 7, .ref 4, .lst 9, .lst 11, .ref 7, .ref 7, .ref 9, .ref 9,
      .ref 7, .ref 4], [], 16⟩⟩ }

/-- The lists `[[X | X] | Z]` and `[[Y | Y] | [X | Z]]` are unified to the same effect from either
side, though `X` is bound to `Y` from one side and `Y` to `X` from the other. -/
theorem run_comm_crossedLists :
    ∃ u₁ u₂ log₁ log₂ s₁ s₂,
      runLogged .lastToFirst 1 8 (start 1 2) crossedLists .empty = .ok (u₁, log₁, s₁) ∧
      runLogged .lastToFirst 1 8 (start 2 1) crossedLists .empty = .ok (u₂, log₂, s₂) ∧
      s₁.heap.read? 7 = some (.ref 9) ∧ s₂.heap.read? 9 = some (.ref 7) ∧
      u₁.status = u₂.status ∧ s₁.heap.Equivalent s₂.heap := by
  have nc : crossedLists.heap.NoRefCycle := Heap.noRefCycle_of_deref (by decide)
  have rn₁ : runLogged .lastToFirst 1 8 (start 1 2) crossedLists .empty = .ok (_, _, _) := rfl
  have rn₂ : runLogged .lastToFirst 1 8 (start 2 1) crossedLists .empty = .ok (_, _, _) := rfl
  obtain ⟨same, equiv⟩ := run_comm nc rn₁ nofun rn₂ nofun
  exact ⟨_, _, _, _, _, _, rn₁, rn₂, rfl, rfl, same, equiv rfl⟩

end Unifier
end TermHeap
