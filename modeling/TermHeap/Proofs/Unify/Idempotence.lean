import TermHeap.Proofs.Unify.Agreement
import TermHeap.Proofs.Unify.Termination
import TermHeap.Proofs.Unify.Writes

/-!
# Unification is idempotent

A run that succeeds leaves equal trees at its two addresses, in which the variables are the same
cells. From there no pair asks for a binding and none clashes (`SameTree.turn`), whatever the order
and the direction of comparison, so another run changes nothing (`run_settled`) and comes to no
failure. It ends if the trees are finite, because the substitution that changes nothing unifies
them.
-/

namespace TermHeap

namespace Heap

variable {h h' : Heap} {a b x y : Addr} {new : Option (List (Addr × Addr))}

/-- Only references to an unbound variable have the same tree as the variable. -/
lemma SameTree.ends_of_unbound (st : h.SameTree x y) (ub : h.Unbound x) : h.Ends y x := by
  have e := st 1
  rw [unfold_var (view_eq_var_iff.mpr ⟨ub.ends, ub⟩)] at e
  cases hv : h.view y with
  | var z =>
    rw [unfold_var hv] at e
    obtain rfl := Tree.var.inj e
    exact (view_eq_var_iff.mp hv).1
  | node l ps =>
    rw [unfold_node hv] at e
    cases e

/-- A pair of addresses with the same tree asks for no binding. -/
lemma SameTree.not_binds (st : h.SameTree a b)
    (en : h.Ends a x ∧ h.Ends b y ∨ h.Ends b x ∧ h.Ends a y) (ub : h.Unbound x) (ny : y ≠ x) :
    False := by
  have same : h.SameTree x y := by
    rcases en with ⟨ex, ey⟩ | ⟨ex, ey⟩
    · exact ((SameTree.of_ends ex).symm.trans st).trans (.of_ends ey)
    · exact ((SameTree.of_ends ex).symm.trans st.symm).trans (.of_ends ey)
  have self : h.Ends y y := by
    rcases en with ⟨_, ey⟩ | ⟨_, ey⟩
    · exact ey.self
    · exact ey.self
  exact ny (self.unique (same.ends_of_unbound ub))

/-- Working off a pair of addresses with the same tree changes nothing, and what takes its place are
such pairs again. -/
lemma SameTree.turn (nc : h.NoRefCycle) (st : h.SameTree a b) (tn : Turn h a b new h') :
    h' = h ∧ ∃ pairs, new = some pairs ∧ ∀ pq ∈ pairs, h.SameTree pq.1 pq.2 := by
  have sol : h.Solves h.SameTree := (Binds.refl h).solves_sameTree nc nc
  refine ⟨?_, (sol.turn nc st tn).2⟩
  cases tn with
  | bind en ny ub _ => exact (st.not_binds en ub ny).elim
  | _ => rfl

end Heap

namespace Unifier

variable {order : Order} {u u' : Unifier} {h h' : Heap} {s : Store} {v : Int} {fuel : Nat}

/-- A step among pairs with the same trees leaves the heap as it is. -/
lemma step_settled (nc : h.NoRefCycle) (wi : u.Within h.SameTree)
    (st : u.step order h = .ok (u', h')) : h' = h ∧ u'.Within h.SameTree := by
  obtain ⟨_, rfl, rfl⟩ | ⟨a, b, rest, new, hp, _, tn, e⟩ := step_turn st
  · exact ⟨rfl, wi⟩
  · have hab : h.SameTree a b := wi.2 (a, b) (by simp [hp])
    obtain ⟨rfl, _⟩ := hab.turn nc tn
    exact ⟨rfl, (step_within ((Heap.Binds.refl h').solves_sameTree nc nc) nc wi st).2⟩

/-- A run among pairs with the same trees leaves the heap as it is and meets no clash. -/
theorem run_settled (nc : h.NoRefCycle) (wi : u.Within h.SameTree)
    (rn : run order fuel u h = .ok (u', h')) : h' = h ∧ u'.Within h.SameTree := by
  apply run_invariant (P := fun u h' => h' = h ∧ u.Within h.SameTree) _ ⟨rfl, wi⟩ rn
  rintro u₁ h₁ u₂ h₂ ⟨rfl, wi⟩ st
  exact step_settled nc wi st

/-- A run ends where the trees are the same already and finite: the substitution that changes
nothing unifies them. -/
lemma exists_settled {a b : Addr} (nc : h.NoRefCycle)
    (safe : ∀ fuel, ∃ u h', run order fuel (start a b) h = .ok (u, h')) (same : h.SameTree a b)
    (ac : h.Acyclic a) (bc : h.Acyclic b) :
    ∃ n u, u.status = .success ∧ ∀ m ≥ n, run order m (start a b) h = .ok (u, h) := by
  obtain ⟨t, ra⟩ := Heap.acyclic_iff_reads.mp ac
  obtain ⟨t', rb⟩ := Heap.acyclic_iff_reads.mp bc
  obtain rfl := ra.eq_of_unfold rb same
  obtain ⟨u, h', rn, ok⟩ := exists_success (σ := .var) safe nc ra rb rfl
  obtain ⟨rfl, _⟩ := run_settled nc (within_start same) rn
  exact ⟨_, u, ok, fun m le => run_of_le rn (by rw [ok]; nofun) le⟩

/-! ### Reports -/

/-- A step among pairs with the same trees binds nothing, so nothing without an end. -/
lemma Within.not_bindsEndless (wi : u.Within h.SameTree) : ¬ u.BindsEndless h := by
  rintro ⟨x, y, hw, _⟩
  obtain ⟨a, b, rest, hp, en, ub, ny, _⟩ := write?_eq_some hw
  have hab : h.SameTree a b := wi.2 (a, b) (by simp [hp])
  exact hab.not_binds en ub ny

/-- A run among pairs with the same trees is reported, or it meets a signature without a name that
is to be reported. -/
lemma runLogged_settled (nc : s.heap.NoRefCycle) (wi : u.Within s.heap.SameTree)
    (rn : run order fuel u s.heap = .ok (u', h')) (v : Int) (log : Log) :
    (∃ log', runLogged order v fuel u s log = .ok (u', log', s)) ∨
      runLogged order v fuel u s log = .error .noSymbol ∧ 1 < v := by
  obtain ⟨rfl, _⟩ := run_settled nc wi rn
  have reported := runLogged_of_finite (P := fun u h => h = s.heap ∧ u.Within s.heap.SameTree)
    (by
      rintro u₁ h₁ u₂ h₂ ⟨rfl, wi⟩ st
      exact step_settled nc wi st)
    (by
      rintro u₁ h₁ ⟨rfl, wi⟩
      exact wi.not_bindsEndless)
    ⟨rfl, wi⟩ rn v log
  rcases reported with ok | ⟨failed, loud, _⟩
  · exact .inl ok
  · exact .inr ⟨failed, loud⟩

/-! ### Running again -/

/-- **Unification is idempotent.** After a run that succeeded on a heap without cycles of
references, in whatever order of comparison, a run on the same two addresses in either direction and
in any order of comparison leaves the store exactly as it is, and it succeeds if it ends. If the
heap was well formed and what is now at the two addresses is acyclic, such a run ends: it succeeds,
unless a record is to be reported whose signature has no name. -/
theorem run_idempotent {s s₁ : Store} {o₁ : Order} {v₁ : Int} {f₁ : Nat} {log log₁ : Log}
    {u₁ : Unifier} {a b c d : Addr} (nc : s.heap.NoRefCycle)
    (rn₁ : runLogged o₁ v₁ f₁ (start a b) s log = .ok (u₁, log₁, s₁)) (ok : u₁.status = .success)
    (dir : (c, d) = (a, b) ∨ (c, d) = (b, a)) (order : Order) (v : Int) :
    (∀ fuel log u log' s', runLogged order v fuel (start c d) s₁ log = .ok (u, log', s') →
      s' = s₁ ∧ (u.status ≠ .running → u.status = .success)) ∧
    (s.heap.WellFormed → s₁.heap.Acyclic a → s₁.heap.Acyclic b →
      ∃ n u, u.status = .success ∧ ∀ fuel ≥ n, ∀ log,
        (∃ log', runLogged order v fuel (start c d) s₁ log = .ok (u, log', s₁)) ∨
          runLogged order v fuel (start c d) s₁ log = .error .noSymbol ∧ 1 < v) := by
  obtain ⟨rn₁, _, _⟩ := runLogged_run rn₁
  have nc₁ : s₁.heap.NoRefCycle := (run_binds rn₁).2 nc
  have wi : (start c d).Within s₁.heap.SameTree := (run_solves nc rn₁ ok dir).2
  refine ⟨?_, ?_⟩
  · intro fuel log u log' s' rn
    obtain ⟨rn, es, ev⟩ := runLogged_run rn
    obtain ⟨eh, wi'⟩ := run_settled nc₁ wi rn
    refine ⟨Store.ext eh es ev, ?_⟩
    intro ended
    cases hs : u.status with
    | running => exact absurd hs ended
    | success => rfl
    | failure => exact absurd hs wi'.status_ne
  · intro wf ac bc
    -- the first run made a step, so it started at cells, and cells are all that further runs need
    have made : ∃ n, f₁ = n + 1 := by
      apply Nat.exists_eq_add_one_of_ne_zero
      rintro rfl
      obtain ⟨rfl, _⟩ := Prod.mk.inj (Except.ok.inj rn₁)
      cases ok
    obtain ⟨n, rfl⟩ := made
    obtain ⟨va, vb⟩ := isValid_of_run rn₁
    have points := wf.points.mono fun _ => Heap.IsValue.isValid
    obtain ⟨u', h', rn', sf⟩ := run_safe o₁ (.start points nc (fun _ => id) va vb) (n + 1)
    obtain ⟨_, rfl⟩ := Prod.mk.inj (Except.ok.inj (rn'.symm.trans rn₁))
    have again : ∀ {x y}, s.heap.isValid x = true → s.heap.isValid y = true → ∀ fuel,
        ∃ u h', run order fuel (start x y) s₁.heap = .ok (u, h') := by
      intro x y vx vy fuel
      obtain ⟨u, h', rn, _⟩ := run_safe order (.start sf.points nc₁ sf.valid vx vy) fuel
      exact ⟨u, h', rn⟩
    have same : s₁.heap.SameTree c d := wi.2 (c, d) (by simp [start])
    obtain ⟨n, u, ok', rn⟩ : ∃ n u, u.status = .success ∧
        ∀ fuel ≥ n, run order fuel (start c d) s₁.heap = .ok (u, s₁.heap) := by
      rcases dir with e | e
      · cases e
        exact exists_settled nc₁ (again va vb) same ac bc
      · cases e
        exact exists_settled nc₁ (again vb va) same bc ac
    exact ⟨n, u, ok', fun fuel le log => runLogged_settled nc₁ wi (rn fuel le) v log⟩

/-- After the records `p(X, X)` and `p([Y | Y], [1 | Z])` were unified, unifying them again from the
other side in the other order changes nothing and succeeds. -/
theorem run_idempotent_sharedLists :
    ∃ u₁ log₁ s₁, runLogged .firstToLast 1 8 (start 1 2) sharedLists .empty = .ok (u₁, log₁, s₁) ∧
      u₁.status = .success ∧ s₁.heap.read? 4 = some (.ref 7) ∧
      ∃ n u log', runLogged .lastToFirst 1 n (start 2 1) s₁ .empty = .ok (u, log', s₁) ∧
        u.status = .success := by
  have wf : sharedLists.heap.WellFormed := Heap.wellFormed_of_check (by decide)
  have rn₁ : runLogged .firstToLast 1 8 (start 1 2) sharedLists .empty = .ok (_, _, _) := rfl
  obtain ⟨_, ends⟩ := run_idempotent wf.noRefCycle rn₁ rfl (.inr rfl) .lastToFirst 1
  obtain ⟨n, u, ok, rn⟩ := ends wf (Heap.acyclic_of_allFinite (by decide) 1)
    (Heap.acyclic_of_allFinite (by decide) 2)
  rcases rn n (Nat.le_refl n) .empty with ⟨log', rn⟩ | ⟨_, loud⟩
  · exact ⟨_, _, _, rn₁, rfl, rfl, n, u, log', rn, ok⟩
  · exact absurd loud (by decide)

end Unifier
end TermHeap
