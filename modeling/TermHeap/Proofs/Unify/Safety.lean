import TermHeap.Proofs.Heap.WellFormed
import TermHeap.Proofs.Unify.Step

/-!
# Unification is safe

Unification that starts from addresses of a set `V` into which the cells of a heap point stays in
`V`. If `V` holds addresses of cells only, no step meets a missing cell, in whatever state the
unification is left: `run_safe` is the statement for whole runs, `step_safe` for a single step.
-/

namespace TermHeap

variable {order : Order} {h h' : Heap} {V : Addr → Prop} {a b : Addr} {u u' : Unifier}

/-- A turn keeps cells pointing into `V`, and what takes the place of a pair is in `V`. -/
lemma Turn.points {new : Option (List (Addr × Addr))} (tn : Turn h a b new h')
    (pt : h.PointsInto V) (va : V a) (vb : V b) :
    h'.PointsInto V ∧ ∀ pairs, new = some pairs → ∀ pq ∈ pairs, V pq.1 ∧ V pq.2 := by
  cases tn with
  | bind en _ ub _ =>
    refine ⟨?_, by simp⟩
    obtain ⟨_, ey⟩ | ⟨_, ey⟩ := en
    · exact pt.bind ub (pt.ends vb ey)
    · exact pt.bind ub (pt.ends va ey)
  | parts hv hw _ perm =>
    refine ⟨pt, ?_⟩
    rintro pairs e pq mem
    cases e
    have mem' := List.of_mem_zip (perm.mem_iff.mp mem)
    exact ⟨pt.part hv _ mem'.1, pt.part hw _ mem'.2⟩
  | _ => exact ⟨pt, by simp⟩

/-- The cells of a heap point into `V`, which holds addresses of cells, and so do the pairs of a
unifier. -/
structure Safe (V : Addr → Prop) (u : Unifier) (h : Heap) : Prop where
  points : h.PointsInto V
  noRefCycle : h.NoRefCycle
  valid : ∀ p, V p → h.isValid p = true
  pending : ∀ pq ∈ u.pending, V pq.1 ∧ V pq.2

/-- A unification that starts in `V` is safe. -/
lemma Safe.start (pt : h.PointsInto V) (nc : h.NoRefCycle) (val : ∀ p, V p → h.isValid p = true)
    (va : V a) (vb : V b) : Safe V (Unifier.start a b) h := by
  refine ⟨pt, nc, val, ?_⟩
  intro pq mem
  obtain rfl : pq = (a, b) := by simpa [Unifier.start] using mem
  exact ⟨va, vb⟩

namespace Unifier

/-- Both addresses of a pending pair lead to cells that can be compared. -/
lemma Safe.exists_compare? {rest : List (Addr × Addr)} (sf : Safe V u h)
    (hp : u.pending = (a, b) :: rest) : ∃ r, h.compare? a b = some r := by
  obtain ⟨va, vb⟩ := sf.pending (a, b) (by simp [hp])
  obtain ⟨x, ex⟩ := sf.noRefCycle.exists_ends a
  obtain ⟨y, ey⟩ := sf.noRefCycle.exists_ends b
  exact Heap.exists_compare? ex (sf.valid x (sf.points.ends va ex)) ey
    (sf.valid y (sf.points.ends vb ey))

/-- A safe unification can make a step. -/
lemma exists_step (order : Order) (sf : Safe V u h) : ∃ u' h', u.step order h = .ok (u', h') := by
  unfold step
  split
  · exact ⟨u, h, rfl⟩
  · split
    · exact ⟨u, h, rfl⟩
    · rename_i a b rest hp
      obtain ⟨⟨vd, note⟩, hc⟩ := Safe.exists_compare? sf hp
      rw [hc]
      exact ⟨_, _, rfl⟩

/-- A step leaves a safe unification. -/
lemma Safe.step (sf : Safe V u h) (st : u.step order h = .ok (u', h')) : Safe V u' h' := by
  obtain ⟨bd, nc⟩ := step_binds st
  have val : ∀ p, V p → h'.isValid p = true := fun p vp => (bd.isValid p).trans (sf.valid p vp)
  obtain ⟨_, rfl, rfl⟩ | ⟨a, b, rest, new, hp, _, tn, e⟩ := step_turn st
  · exact sf
  · obtain ⟨va, vb⟩ := sf.pending (a, b) (by simp [hp])
    obtain ⟨pt, prs⟩ := tn.points sf.points va vb
    refine ⟨pt, nc sf.noRefCycle, val, ?_⟩
    cases new with
    | none =>
      rw [e]
      simp
    | some new =>
      rw [e]
      intro pq mem
      rcases List.mem_append.mp mem with mem | mem
      · exact prs new rfl pq mem
      · exact sf.pending pq (by simp [hp, mem])

/-- A safe step finds the cells that it needs and leaves a safe unification. -/
theorem step_safe (order : Order) (sf : Safe V u h) :
    ∃ u' h', u.step order h = .ok (u', h') ∧ Safe V u' h' := by
  obtain ⟨u', h', st⟩ := exists_step order sf
  exact ⟨u', h', st, Safe.step sf st⟩

/-- A safe run finds the cells that it needs, however long it goes on. -/
theorem run_safe (order : Order) (sf : Safe V u h) (fuel : Nat) :
    ∃ u' h', run order fuel u h = .ok (u', h') ∧ Safe V u' h' :=
  run_total (step_safe order) sf fuel

end Unifier

/-- Unification of values in a well-formed heap is safe. -/
lemma Heap.WellFormed.safe (wf : h.WellFormed) (va : h.IsValue a) (vb : h.IsValue b) :
    Safe h.IsValue (Unifier.start a b) h :=
  .start wf.points wf.noRefCycle (fun _ => Heap.IsValue.isValid) va vb

end TermHeap
