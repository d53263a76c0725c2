import TermHeap.Proofs.Unify.Step

/-!
# Solutions of a unification

A *solution* is a relation between addresses under which the terms of a heap can be made equal: it
goes along references, and related terms that are no variables have the same head and related
parts. The development rests on two facts about solutions, which together relate every run to every
other one:

* a run that starts from related pairs never clashes and only ever binds a variable to something
  related to it (`run_within`);
* a run that succeeds makes its pairs equal to every depth (`run_sameTree`), and being equal to
  every depth in its final heap is a solution for the heap it started from
  (`Binds.solves_sameTree`).
-/

namespace TermHeap

namespace Heap

/-- The relation `S` relates what has to become equal for the terms of a heap to become equal. -/
structure Solves (h : Heap) (S : Addr → Addr → Prop) : Prop where
  symm : ∀ {p q}, S p q → S q p
  trans : ∀ {p q r}, S p q → S q r → S p r
  ends : ∀ {p q e}, S p q → h.Ends p e → S p e
  node : ∀ {p q l k ps qs}, S p q → h.view p = .node l ps → h.view q = .node k qs →
    l = k ∧ List.Forall₂ S ps qs

/-- The trees at two addresses are equal to every depth. -/
def SameTree (h : Heap) (p q : Addr) : Prop := ∀ n, h.unfold n p = h.unfold n q

variable {h h' : Heap} {S : Addr → Addr → Prop} {a b p q e x y : Addr}
  {l k : Head} {ps qs : List Addr}

/-- What related addresses refer to is related. -/
lemma Solves.ends_ends {e e' : Addr} (sol : h.Solves S) (hs : S p q) (en : h.Ends p e)
    (en' : h.Ends q e') : S e e' :=
  sol.trans (sol.symm (sol.ends hs en)) (sol.trans hs (sol.ends (sol.symm hs) en'))

/-- A solution stays one if a variable is bound to what it is related to. -/
lemma Solves.bind (sol : h.Solves S) (nc : h.NoRefCycle) (hs : S x y) (ub : h.Unbound x)
    (ny : y ≠ x) (ey : h.Ends y y) : (h.write x (.ref y)).Solves S := by
  have ends : ∀ {p q e}, S p q → (h.write x (.ref y)).Ends p e → S p e := by
    intro p q e hpq en'
    obtain ⟨e₀, en⟩ := nc.exists_ends p
    obtain rfl := (Ends.bind ub ny ey en).unique en'
    have hpe := sol.ends hpq en
    split
    · rename_i ex
      rw [ex] at hpe
      exact sol.trans hpe hs
    · exact hpe
  refine ⟨sol.symm, sol.trans, ends, ?_⟩
  intro p q l k ps qs hpq hv hw
  -- the heads and parts are those of the ends, which stood for them before
  obtain ⟨e, en⟩ := (nc.bind ub ny ey).exists_ends p
  obtain ⟨e', en'⟩ := (nc.bind ub ny ey).exists_ends q
  obtain ⟨_, hv'⟩ := (Binds.bind ub).view_end en hv
  obtain ⟨_, hw'⟩ := (Binds.bind ub).view_end en' hw
  have hee : S e e' := by
    have h₁ := ends hpq en
    have h₂ := ends (sol.symm hpq) en'
    exact sol.trans (sol.symm h₁) (sol.trans hpq h₂)
  exact sol.node hee hv' hw'

/-- A pair of related addresses does not clash, and what takes its place is related. -/
lemma Solves.turn {new : Option (List (Addr × Addr))} (sol : h.Solves S) (nc : h.NoRefCycle)
    (hs : S a b) (tn : Turn h a b new h') :
    h'.Solves S ∧ ∃ pairs, new = some pairs ∧ ∀ pq ∈ pairs, S pq.1 pq.2 := by
  cases tn with
  | same _ _ => exact ⟨sol, [], rfl, by simp⟩
  | bind en ny ub _ =>
    refine ⟨?_, [], rfl, by simp⟩
    obtain ⟨ea, eb⟩ | ⟨eb, ea⟩ := en
    · exact sol.bind nc (sol.ends_ends hs ea eb) ub ny eb.self
    · exact sol.bind nc (sol.ends_ends (sol.symm hs) eb ea) ub ny ea.self
  | parts hv hw _ perm =>
    refine ⟨sol, _, rfl, ?_⟩
    obtain ⟨_, rel⟩ := sol.node hs hv hw
    intro pq mem
    exact (List.forall₂_iff_zip.mp rel).2 (perm.mem_iff.mp mem)
  | clash hv hw ne => exact absurd (sol.node hs hv hw).1 ne

end Heap

namespace Unifier

variable {order : Order} {u u' : Unifier} {h h' : Heap} {S : Addr → Addr → Prop} {fuel : Nat}

/-- A unifier that has met no clash and is left with related pairs. -/
def Within (u : Unifier) (S : Addr → Addr → Prop) : Prop :=
  u.failed = false ∧ ∀ pq ∈ u.pending, S pq.1 pq.2

/-- A unifier starts among related pairs if its addresses are related. -/
lemma within_start {a b : Addr} (hs : S a b) : (start a b).Within S := by
  refine ⟨rfl, ?_⟩
  intro pq mem
  obtain rfl : pq = (a, b) := by simpa [start] using mem
  exact hs

/-- A step among related pairs keeps to them. -/
lemma step_within (sol : h.Solves S) (nc : h.NoRefCycle) (wi : u.Within S)
    (st : u.step order h = .ok (u', h')) : h'.Solves S ∧ u'.Within S := by
  obtain ⟨_, rfl, rfl⟩ | ⟨a, b, rest, new, hp, _, tn, e⟩ := step_turn st
  · exact ⟨sol, wi⟩
  · have hab : S a b := wi.2 (a, b) (by simp [hp])
    obtain ⟨sol', pairs, rfl, rel⟩ := sol.turn nc hab tn
    refine ⟨sol', ?_⟩
    rw [e]
    refine ⟨rfl, ?_⟩
    intro pq mem
    rcases List.mem_append.mp mem with mem | mem
    · exact rel pq mem
    · exact wi.2 pq (by simp [hp, mem])

/-- A run among related pairs keeps to them: it never clashes, and the relation still solves the
heap that it leaves. -/
theorem run_within (sol : h.Solves S) (nc : h.NoRefCycle) (wi : u.Within S)
    (rn : run order fuel u h = .ok (u', h')) : h'.Solves S ∧ u'.Within S := by
  have inv := run_invariant (P := fun u h => h.NoRefCycle ∧ h.Solves S ∧ u.Within S)
    (fun ⟨nc, sol, wi⟩ st => ⟨(step_binds st).2 nc, step_within sol nc wi st⟩) ⟨nc, sol, wi⟩ rn
  exact inv.2

/-- A unifier among related pairs has not failed. -/
lemma Within.status_ne (wi : u.Within S) : u.status ≠ .failure := by
  rw [status, wi.1]
  simp only [Bool.false_eq_true, if_false]
  split <;> simp

end Unifier

/-! ### What a successful run has made equal -/

namespace Heap

variable {h h' : Heap} {a b p q e : Addr} {l k : Head} {ps qs : List Addr}

/-- Equality to every depth is symmetric. -/
lemma SameTree.symm (st : h.SameTree p q) : h.SameTree q p := fun n => (st n).symm

/-- Equality to every depth is transitive. -/
lemma SameTree.trans {r : Addr} (st : h.SameTree p q) (st' : h.SameTree q r) : h.SameTree p r :=
  fun n => (st n).trans (st' n)

/-- The end of references has the same tree. -/
lemma SameTree.of_ends (en : h.Ends p e) : h.SameTree p e := fun n => unfold_of_ends en n

/-- Where references ended before variables were bound there is the same tree afterwards. -/
lemma Binds.sameTree (bd : Binds h h') (nc : h'.NoRefCycle) (en : h.Ends p e) :
    h'.SameTree p e := by
  intro n
  cases n with
  | zero => rfl
  | succ n => rw [unfold, unfold, bd.view_eq nc en]

/-- Rows of addresses have equal trees if the trees are equal at each depth. -/
lemma forall₂_sameTree_iff :
    List.Forall₂ h.SameTree ps qs ↔ ∀ n, ps.map (h.unfold n) = qs.map (h.unfold n) := by
  induction ps generalizing qs with
  | nil =>
    cases qs with
    | nil => simp
    | cons q qs => simp
  | cons p ps ih =>
    cases qs with
    | nil => simp
    | cons q qs =>
      rw [List.forall₂_cons, ih]
      simp only [List.map_cons, List.cons.injEq, SameTree, forall_and]

/-- Terms with the same head and equal parts are equal. -/
lemma SameTree.of_node (hv : h.view p = .node l ps) (hw : h.view q = .node l qs)
    (rel : List.Forall₂ h.SameTree ps qs) : h.SameTree p q := by
  intro n
  cases n with
  | zero => rfl
  | succ n => rw [unfold_node hv, unfold_node hw, forall₂_sameTree_iff.mp rel n]

/-- Equal terms have the same head and equal parts. -/
lemma SameTree.node (st : h.SameTree p q) (hv : h.view p = .node l ps)
    (hw : h.view q = .node k qs) : l = k ∧ List.Forall₂ h.SameTree ps qs := by
  have e : ∀ n, l = k ∧ ps.map (h.unfold n) = qs.map (h.unfold n) := by
    intro n
    have := st (n + 1)
    rw [unfold_node hv, unfold_node hw] at this
    simpa using this
  exact ⟨(e 0).1, forall₂_sameTree_iff.mpr fun n => (e n).2⟩

/-- Equality to every depth after some variables were bound is a solution for the heap before. -/
theorem Binds.solves_sameTree (bd : Binds h h') (nc : h.NoRefCycle) (nc' : h'.NoRefCycle) :
    h.Solves h'.SameTree := by
  refine ⟨SameTree.symm, SameTree.trans, fun _ en => bd.sameTree nc' en, ?_⟩
  intro p q l k ps qs st hv hw
  obtain ⟨e, en⟩ := nc.exists_ends p
  obtain ⟨e', en'⟩ := nc.exists_ends q
  exact st.node (bd.view_node en hv) (bd.view_node en' hw)

/-- A pair is equal to every depth once it was bound or what took its place is equal. -/
lemma turn_sameTree {h₁ : Heap} {new : List (Addr × Addr)} (tn : Turn h a b (some new) h₁)
    (nc : h.NoRefCycle) (bd : Binds h₁ h') (nc' : h'.NoRefCycle)
    (eqs : ∀ pq ∈ new, h'.SameTree pq.1 pq.2) : h'.SameTree a b := by
  cases tn with
  | same ea eb => exact (bd.sameTree nc' ea).trans (bd.sameTree nc' eb).symm
  | @bind x y en ny ub _ =>
    -- after the binding both references end at `y`
    obtain ⟨ex, ey⟩ | ⟨ex, ey⟩ := en
    · have ex' := Ends.bind ub ny ey.self ex
      have ey' := Ends.bind ub ny ey.self ey
      rw [if_pos rfl] at ex'
      rw [if_neg ny] at ey'
      exact (bd.sameTree nc' ex').trans (bd.sameTree nc' ey').symm
    · have ex' := Ends.bind ub ny ey.self ex
      have ey' := Ends.bind ub ny ey.self ey
      rw [if_pos rfl] at ex'
      rw [if_neg ny] at ey'
      exact (bd.sameTree nc' ey').trans (bd.sameTree nc' ex').symm
  | parts hv hw len perm =>
    obtain ⟨e, en⟩ := nc.exists_ends a
    obtain ⟨e', en'⟩ := nc.exists_ends b
    apply SameTree.of_node (bd.view_node en hv) (bd.view_node en' hw)
    refine List.forall₂_iff_zip.mpr ⟨len, ?_⟩
    intro p q mem
    exact eqs (p, q) (perm.mem_iff.mpr mem)

end Heap

namespace Unifier

variable {order : Order} {u u' : Unifier} {h h' : Heap} {fuel : Nat}

/-- A run that starts at its end does nothing. -/
lemma run_of_ended (ended : u.status ≠ .running) : run order fuel u h = .ok (u, h) := by
  cases fuel with
  | zero => rfl
  | succ fuel => rw [run, if_neg ended]

/-- A unifier that has succeeded has no pair left. -/
lemma pending_of_success (ok : u.status = .success) : u.failed = false ∧ u.pending = [] := by
  rw [status] at ok
  split at ok
  · cases ok
  · rename_i hf
    split at ok
    · rename_i hp
      exact ⟨by simpa using hf, by simpa using hp⟩
    · cases ok

/-- A run that succeeds has made all its pairs equal to every depth. -/
theorem run_sameTree (nc : h.NoRefCycle) (rn : run order fuel u h = .ok (u', h'))
    (ok : u'.status = .success) : ∀ pq ∈ u.pending, h'.SameTree pq.1 pq.2 := by
  -- backwards along the run: what takes the place of a pair is worked off later
  induction fuel generalizing u h with
  | zero =>
    cases rn
    rw [(pending_of_success ok).2]
    simp
  | succ fuel ih =>
    rw [run] at rn
    split at rn
    · rename_i running
      split at rn
      · cases rn
      · rename_i u₁ h₁ st
        have nc₁ := (step_binds st).2 nc
        have ih₁ := ih nc₁ rn
        obtain ⟨stop, _⟩ | ⟨a, b, rest, new, hp, _, tn, e⟩ := step_turn st
        · exact absurd running stop
        cases new with
        | none =>
          -- a clash ends the run, so it cannot succeed
          rw [run_of_ended (by simp [e, status])] at rn
          cases rn
          rw [e] at ok
          cases ok
        | some new =>
          rw [e] at ih₁
          obtain ⟨bd, nc'⟩ := run_binds rn
          have hab := Heap.turn_sameTree tn nc bd (nc' nc₁) fun pq mem =>
            ih₁ pq (List.mem_append.mpr (.inl mem))
          rw [hp]
          intro pq mem
          rcases List.mem_cons.mp mem with rfl | mem
          · exact hab
          · exact ih₁ pq (List.mem_append.mpr (.inr mem))
    · cases rn
      rw [(pending_of_success ok).2]
      simp

end Unifier
end TermHeap
