import TermHeap.Proofs.Unify.Safety
import TermHeap.Proofs.Unify.Solution

/-!
# Most general unifiers

Unification without an occurs check, seen through substitutions by finite trees. A unifier of two
trees relates the addresses whose trees it makes equal, which is a solution (`solves_equalUnder`),
so a run neither clashes nor builds a cycle if there is a unifier. The bindings that a run leaves
are themselves a unifier if they are acyclic, and every other one factors through them
(`run_mostGeneral`).
-/

namespace TermHeap

/-- The substitution makes two trees equal. -/
def Unifies (σ : Addr → Tree) (t u : Tree) : Prop := t.subst σ = u.subst σ

namespace Heap

/-- The substitution makes the finite trees at two addresses equal. -/
def EqualUnder (h : Heap) (σ : Addr → Tree) (p q : Addr) : Prop :=
  ∃ t u, h.Reads p t ∧ h.Reads q u ∧ Unifies σ t u

variable {h h' : Heap} {σ : Addr → Tree} {p q : Addr} {t t' u : Tree} {ps qs : List Addr}

/-- Rows of finite trees that become equal row by row become equal one by one. -/
lemma forall₂_equalUnder {ts us : List Tree} (rt : List.Forall₂ h.Reads ps ts)
    (ru : List.Forall₂ h.Reads qs us) (e : ts.map (Tree.subst σ) = us.map (Tree.subst σ)) :
    List.Forall₂ (h.EqualUnder σ) ps qs := by
  induction rt generalizing qs us with
  | nil =>
    cases ru with
    | nil => exact .nil
    | cons => cases e
  | cons rt _ ih =>
    cases ru with
    | nil => cases e
    | cons ru rus =>
      simp only [List.map_cons, List.cons.injEq] at e
      exact .cons ⟨_, _, rt, ru, e.1⟩ (ih rus e.2)

/-- What a substitution makes equal is a solution. -/
theorem solves_equalUnder (h : Heap) (σ : Addr → Tree) : h.Solves (h.EqualUnder σ) := by
  refine ⟨?_, ?_, ?_, ?_⟩
  · rintro p q ⟨t, u, rt, ru, e⟩
    exact ⟨u, t, ru, rt, e.symm⟩
  · rintro p q r ⟨t, u, rt, ru, e⟩ ⟨u', w, ru', rw', e'⟩
    obtain rfl := ru.unique ru'
    exact ⟨t, w, rt, rw', e.trans e'⟩
  · rintro p q e ⟨t, u, rt, _, _⟩ en
    exact ⟨t, t, rt, rt.ends en, rfl⟩
  · rintro p q l k ps qs ⟨t, u, rt, ru, e⟩ hv hw
    obtain ⟨ts, rfl, rts⟩ := rt.of_node hv
    obtain ⟨us, rfl, rus⟩ := ru.of_node hw
    rw [Unifies, Tree.subst_node, Tree.subst_node, Tree.node.injEq] at e
    exact ⟨e.1, forall₂_equalUnder rts rus e.2⟩

/-- The first level of a term after bindings that respect a substitution, and the trees that its
parts had before. -/
lemma Reads.after_level (rd : h.Reads p t) (bd : Binds h h') (nc : h'.NoRefCycle)
    (sol : h'.Solves (h.EqualUnder σ)) :
    (∃ x, h'.view p = .var x ∧ σ x = t.subst σ) ∨
    (∃ l ps ts, h'.view p = .node l ps ∧ List.Forall₂ h.Reads ps ts ∧
      t.subst σ = .node l (ts.map (Tree.subst σ))) := by
  obtain ⟨e, en⟩ := nc.exists_ends p
  obtain ⟨t₁, te, rd₁, re, eq⟩ := sol.ends ⟨t, t, rd, rd, rfl⟩ en
  obtain rfl := rd₁.unique rd
  cases hv : h'.view p with
  | var x =>
    -- a variable that is unbound now was unbound before
    obtain ⟨ex, ub⟩ := view_eq_var_iff.mp hv
    obtain rfl := ex.unique en
    have ub₀ := bd.unbound ub
    obtain rfl := re.of_var (view_eq_var_iff.mpr ⟨ub₀.ends, ub₀⟩)
    rw [Unifies, Tree.subst_var] at eq
    exact .inl ⟨x, rfl, eq.symm⟩
  | node l ps =>
    obtain ⟨_, he⟩ := bd.view_end en hv
    obtain ⟨ts, rfl, rts⟩ := re.of_node he
    rw [Unifies, Tree.subst_node] at eq
    exact .inr ⟨l, ps, ts, rfl, rts, eq⟩

/-- A row of finite trees is one after bindings if each of them is, with the same instances. -/
lemma forall₂_after {ts : List Tree} (rts : List.Forall₂ h.Reads ps ts)
    (ih : ∀ q, ∀ t ∈ ts, h.Reads q t → ∃ t', h'.Reads q t' ∧ t'.subst σ = t.subst σ) :
    ∃ ts', List.Forall₂ h'.Reads ps ts' ∧ ts'.map (Tree.subst σ) = ts.map (Tree.subst σ) := by
  induction rts with
  | nil => exact ⟨[], .nil, rfl⟩
  | @cons q t qs ts rt _ ih' =>
    obtain ⟨t', rt', e⟩ := ih q t (by simp) rt
    obtain ⟨ts', rts', es⟩ := ih' fun q t mem => ih q t (by simp [mem])
    exact ⟨t' :: ts', .cons rt' rts', by simp [e, es]⟩

/-- As long as bindings respect a substitution, finite trees stay finite and the substitution takes
them to the same tree as before. -/
lemma Reads.after (rd : h.Reads p t) (bd : Binds h h') (nc : h'.NoRefCycle)
    (sol : h'.Solves (h.EqualUnder σ)) : ∃ t', h'.Reads p t' ∧ t'.subst σ = t.subst σ := by
  -- by induction on the tree that both are taken to, which no binding changes
  generalize e : t.subst σ = w
  induction w generalizing p t with
  | var y =>
    obtain ⟨x, hv, ex⟩ | ⟨l, ps, ts, _, _, ex⟩ := rd.after_level bd nc sol
    · exact ⟨.var x, .var hv, by rw [Tree.subst_var, ex, e]⟩
    · rw [e] at ex
      cases ex
  | node k ws ih =>
    obtain ⟨x, hv, ex⟩ | ⟨l, ps, ts, hv, rts, ex⟩ := rd.after_level bd nc sol
    · exact ⟨.var x, .var hv, by rw [Tree.subst_var, ex, e]⟩
    · rw [e] at ex
      cases ex
      obtain ⟨ts', rts', es⟩ := forall₂_after rts fun q t mem rt =>
        ih (t.subst σ) (List.mem_map_of_mem mem) rt rfl
      exact ⟨.node k ts', .of_parts hv rts', by rw [Tree.subst_node, es]⟩

/-- A tree that is still finite after bindings is the old one with the bindings applied. -/
lemma Reads.eq_subst (rd : h.Reads p t) (bd : Binds h h') (nc : h.NoRefCycle)
    (nc' : h'.NoRefCycle) (rd' : h'.Reads p t') : t' = t.subst h'.tree := by
  induction rd generalizing t' with
  | @var p x hv =>
    obtain ⟨en, _⟩ := view_eq_var_iff.mp hv
    have rx : h'.Reads x t' := rd'.congr (bd.view_eq nc' en).symm fun _ _ _ rd => rd
    rw [Tree.subst_var, rx.tree_eq]
  | @node p l ps ts hv len _ ih =>
    obtain ⟨e, en⟩ := nc.exists_ends p
    obtain ⟨ts', rfl, rts'⟩ := rd'.of_node (bd.view_node en hv)
    obtain ⟨len', rds⟩ := List.forall₂_iff_zip.mp rts'
    rw [Tree.subst_node]
    congr 1
    apply List.ext_getElem (by simp; omega)
    intro i hi hi'
    rw [List.getElem_map]
    have hp : i < ps.length := by omega
    exact ih _ _ (getElem_mem_zip hp (by omega)) (rds (getElem_mem_zip hp hi))

end Heap

namespace Unifier

variable {order : Order} {fuel : Nat} {h h' : Heap} {u : Unifier} {a b : Addr} {ta tb : Tree}
  {σ : Addr → Tree}

/-- A unifier of two trees keeps a run on their addresses among what it makes equal. -/
lemma run_equalUnder (nc : h.NoRefCycle) (ra : h.Reads a ta) (rb : h.Reads b tb)
    (un : Unifies σ ta tb) (rn : run order fuel (start a b) h = .ok (u, h')) :
    h'.Solves (h.EqualUnder σ) ∧ u.Within (h.EqualUnder σ) :=
  run_within (h.solves_equalUnder σ) nc (within_start ⟨ta, tb, ra, rb, un⟩) rn

/-- If there is a unifier, what was a finite tree is one after any number of steps. -/
lemma run_reads (nc : h.NoRefCycle) (ra : h.Reads a ta) (rb : h.Reads b tb)
    (un : Unifies σ ta tb) (rn : run order fuel (start a b) h = .ok (u, h')) {p : Addr} {t : Tree}
    (rd : h.Reads p t) : ∃ t', h'.Reads p t' ∧ t'.subst σ = t.subst σ := by
  obtain ⟨bd, nc'⟩ := run_binds rn
  exact rd.after bd (nc' nc) (run_equalUnder nc ra rb un rn).1

/-- The bindings of a run that succeeds and builds no cycle are a unifier. -/
lemma run_unifies (nc : h.NoRefCycle) (ra : h.Reads a ta) (rb : h.Reads b tb)
    (rn : run order fuel (start a b) h = .ok (u, h')) (ok : u.status = .success)
    (ac : h'.Acyclic a) (bc : h'.Acyclic b) :
    Unifies h'.tree ta tb ∧ h'.Reads a (ta.subst h'.tree) ∧ h'.Reads b (ta.subst h'.tree) := by
  obtain ⟨bd, nc'⟩ := run_binds rn
  obtain ⟨ta', ra'⟩ := Heap.acyclic_iff_reads.mp ac
  obtain ⟨tb', rb'⟩ := Heap.acyclic_iff_reads.mp bc
  have same : h'.SameTree a b := run_sameTree nc rn ok (a, b) (by simp [start])
  have ea := ra.eq_subst bd nc (nc' nc) ra'
  have eb := rb.eq_subst bd nc (nc' nc) rb'
  have eq : ta' = tb' := ra'.eq_of_unfold rb' same
  refine ⟨?_, ea ▸ ra', ?_⟩
  · rw [Unifies, ← ea, ← eb, eq]
  · rw [← ea, eq]
    exact rb'

/-- **Unification computes most general unifiers.** On values with finite trees in a well-formed
heap a run never lacks a cell. If it fails, the trees have no unifier by finite trees. If it
succeeds and leaves no cycle, the bindings made are a unifier, they take every finite tree of the
heap to the tree that is now at its address, and every unifier factors through them. If it succeeds
and leaves a cycle, there is no unifier by finite trees. -/
theorem run_mostGeneral {s : Store} (wf : s.heap.WellFormed) (va : s.heap.IsValue a)
    (vb : s.heap.IsValue b) (ra : s.heap.Reads a ta) (rb : s.heap.Reads b tb) (order : Order) :
    (∀ fuel, ∃ u h', run order fuel (start a b) s.heap = .ok (u, h')) ∧
    ∀ fuel v log u log' s', runLogged order v fuel (start a b) s log = .ok (u, log', s') →
      (u.status = .failure → ∀ σ, ¬ Unifies σ ta tb) ∧
      (u.status = .success → s'.heap.Acyclic a → s'.heap.Acyclic b →
        (∃ t, s'.heap.Reads a t ∧ s'.heap.Reads b t) ∧
        Unifies s'.heap.tree ta tb ∧
        ∀ p t, s.heap.Reads p t → s'.heap.Reads p (t.subst s'.heap.tree) ∧
          ∀ σ, Unifies σ ta tb → t.subst σ = (t.subst s'.heap.tree).subst σ) ∧
      (u.status = .success → ¬ (s'.heap.Acyclic a ∧ s'.heap.Acyclic b) →
        ∀ σ, ¬ Unifies σ ta tb) := by
  have nc := wf.noRefCycle
  constructor
  · intro fuel
    obtain ⟨u, h', rn, _⟩ := run_safe order (wf.safe va vb) fuel
    exact ⟨u, h', rn⟩
  intro fuel v log u log' s' rn
  obtain ⟨rn, _, _⟩ := runLogged_run rn
  obtain ⟨bd, nc'⟩ := run_binds rn
  refine ⟨?_, ?_, ?_⟩
  · intro bad σ un
    exact (run_equalUnder nc ra rb un rn).2.status_ne bad
  · intro ok ac bc
    obtain ⟨un, ra', rb'⟩ := run_unifies nc ra rb rn ok ac bc
    refine ⟨⟨_, ra', rb'⟩, un, ?_⟩
    intro p t rd
    have eq : ∀ {t'}, s'.heap.Reads p t' → t' = t.subst s'.heap.tree :=
      rd.eq_subst bd nc (nc' nc)
    constructor
    · obtain ⟨t', rd', _⟩ := run_reads nc ra rb un rn rd
      exact eq rd' ▸ rd'
    · intro σ un'
      obtain ⟨t', rd', e⟩ := run_reads nc ra rb un' rn rd
      rw [← e, eq rd']
  · intro _ cyc σ un
    obtain ⟨ta', ra', _⟩ := run_reads nc ra rb un rn ra
    obtain ⟨tb', rb', _⟩ := run_reads nc ra rb un rn rb
    exact cyc ⟨Heap.acyclic_iff_reads.mpr ⟨ta', ra'⟩, Heap.acyclic_iff_reads.mpr ⟨tb', rb'⟩⟩

/-- The lists `[X | Y]` and `[Y | 7]`, at the addresses 1 and 2. -/
def twoLists : Store :=
  { Store.empty 8 with heap := ⟨⟨#[.lst 3, .lst 5, .ref 3, .ref 4, .ref 4, .int 7], [], 8⟩⟩ }

/-- The bindings that unify `[X | Y]` and `[Y | 7]` are a unifier. -/
theorem run_mostGeneral_twoLists :
    ∃ u log s', runLogged .firstToLast 0 4 (start 1 2) twoLists .empty = .ok (u, log, s') ∧
      u.status = .success ∧
      Unifies s'.heap.tree (.node .pair [.var 3, .var 4])
        (.node .pair [.var 4, .node (.int 7) []]) := by
  have wf : twoLists.heap.WellFormed := Heap.wellFormed_of_check (by decide)
  have ra : twoLists.heap.Reads 1 (.node .pair [.var 3, .var 4]) :=
    .of_parts (show _ = View.node .pair [3, 4] from rfl) (.cons (.var rfl) (.cons (.var rfl) .nil))
  have rb : twoLists.heap.Reads 2 (.node .pair [.var 4, .node (.int 7) []]) :=
    .of_parts (show _ = View.node .pair [5, 6] from rfl) (.cons (.var rfl) (.cons (.leaf rfl) .nil))
  obtain ⟨_, mg⟩ := run_mostGeneral wf (Heap.isValue_iff.mpr rfl) (Heap.isValue_iff.mpr rfl) ra rb
    .firstToLast
  refine ⟨_, _, _, rfl, rfl, ((mg 4 0 .empty _ _ _ rfl).2.1 rfl ?_ ?_).2.1⟩
  · apply Heap.acyclic_iff_reads.mpr
    exact ⟨.node .pair [.node (.int 7) [], .node (.int 7) []],
      .of_parts (show _ = View.node .pair [3, 4] from rfl)
        (.cons (.leaf rfl) (.cons (.leaf rfl) .nil))⟩
  · apply Heap.acyclic_iff_reads.mpr
    exact ⟨.node .pair [.node (.int 7) [], .node (.int 7) []],
      .of_parts (show _ = View.node .pair [5, 6] from rfl)
        (.cons (.leaf rfl) (.cons (.leaf rfl) .nil))⟩

end Unifier
end TermHeap
