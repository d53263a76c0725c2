import TermHeap.Proofs.Unify.MostGeneral
import TermHeap.Proofs.Unify.Reporting

/-!
# Unification of unifiable terms ends

Without an occurs check nothing on the heap gets smaller from step to step: a binding can make the
terms that are left larger. The measure comes from a unifier. A pair weighs as many nodes as the
tree that the unifier takes it to, which no binding changes, and every step takes at least one node
off the weight of the pending pairs (`step_weight`). So a run ends within as many steps as the
common tree under any unifier has nodes, and the bindings that it leaves are such a unifier
(`run_succeeds`). Since all trees stay finite, at most an unknown symbol keeps it from being
reported.
-/

namespace TermHeap

namespace Tree

mutual

/-- The number of nodes of a tree. -/
def size : Tree → Nat
  | .var _ => 1
  | .node _ ts => 1 + sizeAll ts

/-- The number of nodes of several trees. -/
def sizeAll : List Tree → Nat
  | [] => 0
  | t :: ts => t.size + sizeAll ts

end

/-- A tree has a node. -/
lemma size_pos (t : Tree) : 0 < t.size := by
  cases t with
  | var x => exact Nat.one_pos
  | node l ts =>
    rw [size]
    omega

/-- The nodes of two rows of trees add up. -/
lemma sizeAll_append (ts us : List Tree) : sizeAll (ts ++ us) = sizeAll ts + sizeAll us := by
  induction ts with
  | nil => simp [sizeAll]
  | cons t ts ih => simp [sizeAll, ih, Nat.add_assoc]

/-- The order of trees makes no difference to their nodes. -/
lemma sizeAll_perm {ts us : List Tree} (perm : ts.Perm us) : sizeAll ts = sizeAll us := by
  induction perm with
  | nil => rfl
  | cons t _ ih => simp [sizeAll, ih]
  | swap t u ts =>
    simp only [sizeAll]
    omega
  | trans _ _ ih ih' => exact ih.trans ih'

end Tree

namespace Heap

variable {h h₀ h' : Heap} {σ : Addr → Tree} {a b : Addr} {ps qs : List Addr} {ts : List Tree}

/-- What a substitution makes of the finite tree at an address. -/
def image (h : Heap) (σ : Addr → Tree) (p : Addr) : Tree := (h.tree p).subst σ

/-- The images of a row of addresses are those of their trees. -/
lemma map_image (rts : List.Forall₂ h.Reads ps ts) :
    ps.map (h.image σ) = ts.map (Tree.subst σ) := by
  induction rts with
  | nil => rfl
  | cons rt _ ih => rw [List.map_cons, List.map_cons, ih, image, rt.tree_eq]

/-- Pairs weigh what their first addresses do. -/
lemma map_image_zip (len : ps.length = qs.length) :
    (ps.zip qs).map (fun pq => h.image σ pq.1) = ps.map (h.image σ) := by
  rw [← Function.comp_def (h.image σ) Prod.fst, ← List.map_map,
    List.map_fst_zip (Nat.le_of_eq len)]

/-- What takes the place of a pair has at least one node less than the pair. -/
lemma turn_weight {new : List (Addr × Addr)} (bd : Binds h₀ h) (nc : h.NoRefCycle)
    (sol : h.Solves (h₀.EqualUnder σ)) (hs : h₀.EqualUnder σ a b)
    (tn : Turn h a b (some new) h') :
    Tree.sizeAll (new.map fun pq => h₀.image σ pq.1) < (h₀.image σ a).size := by
  cases tn with
  | same => exact Tree.size_pos _
  | bind => exact Tree.size_pos _
  | parts hv hw len perm =>
    obtain ⟨t, u, rt, _, _⟩ := hs
    obtain ⟨x, hx, _⟩ | ⟨l, ps, ts, hn, rts, e⟩ := rt.after_level bd nc sol
    · rw [hv] at hx
      cases hx
    · rw [hv] at hn
      cases hn
      rw [Tree.sizeAll_perm (perm.map _), map_image_zip len, map_image rts, image, rt.tree_eq, e,
        Tree.size]
      omega

end Heap

namespace Unifier

variable {order : Order} {u u' : Unifier} {h h₀ h' : Heap} {σ : Addr → Tree} {a b : Addr}
  {ta tb : Tree} {fuel : Nat}

/-- What a run from the heap `h₀` keeps to if `σ` unifies what it started with: it has only bound
variables, and `σ` makes equal whatever it still has to make equal. -/
structure Toward (h₀ : Heap) (σ : Addr → Tree) (u : Unifier) (h : Heap) : Prop where
  binds : h₀.Binds h
  noRefCycle : h.NoRefCycle
  solves : h.Solves (h₀.EqualUnder σ)
  within : u.Within (h₀.EqualUnder σ)

/-- A run starts so if there is a unifier. -/
lemma toward_start (nc : h.NoRefCycle) (ra : h.Reads a ta) (rb : h.Reads b tb)
    (un : Unifies σ ta tb) : Toward h σ (start a b) h :=
  ⟨.refl h, nc, h.solves_equalUnder σ, within_start ⟨ta, tb, ra, rb, un⟩⟩

/-- Each step keeps to it. -/
lemma Toward.step (tw : Toward h₀ σ u h) (st : u.step order h = .ok (u', h')) :
    Toward h₀ σ u' h' := by
  obtain ⟨bd, nc⟩ := step_binds st
  obtain ⟨sol, wi⟩ := step_within tw.solves tw.noRefCycle tw.within st
  exact ⟨tw.binds.trans bd, nc tw.noRefCycle, sol, wi⟩

/-- The number of nodes that a substitution gives to the pairs still to be made equal. -/
def weight (h : Heap) (σ : Addr → Tree) (u : Unifier) : Nat :=
  Tree.sizeAll (u.pending.map fun pq => h.image σ pq.1)

/-- What is left to do weighs something. -/
lemma weight_pos (running : u.status = .running) : 0 < u.weight h σ := by
  obtain ⟨pending, steps, failed⟩ := u
  cases pending with
  | nil => cases failed <;> cases running
  | cons pq rest =>
    have := Tree.size_pos (h.image σ pq.1)
    simp only [weight, List.map_cons, Tree.sizeAll]
    omega

/-- A step adds no more to the steps made than it takes off the weight. -/
lemma Toward.step_weight (tw : Toward h₀ σ u h) (st : u.step order h = .ok (u', h')) :
    u'.steps + u'.weight h₀ σ ≤ u.steps + u.weight h₀ σ := by
  obtain ⟨_, rfl, _⟩ | ⟨a, b, rest, new, hp, _, tn, e⟩ := step_turn st
  · exact Nat.le_refl _
  · have hab : h₀.EqualUnder σ a b := tw.within.2 (a, b) (by simp [hp])
    obtain ⟨_, new, rfl, _⟩ := tw.solves.turn tw.noRefCycle hab tn
    have lt : _ < (h₀.image σ a).size :=
      Heap.turn_weight tw.binds tw.noRefCycle tw.solves hab tn
    simp only [e, weight, hp, List.map_append, List.map_cons, Tree.sizeAll_append, Tree.sizeAll]
    omega

/-- The steps of a run and the weight that is left are together no more than the common tree under
a unifier has nodes. -/
lemma run_weight (nc : h.NoRefCycle) (ra : h.Reads a ta) (rb : h.Reads b tb)
    (un : Unifies σ ta tb) (rn : run order fuel (start a b) h = .ok (u, h')) :
    u.steps + u.weight h σ ≤ (ta.subst σ).size := by
  have first : (start a b).steps + (start a b).weight h σ ≤ (ta.subst σ).size := by
    simp [start, weight, Heap.image, ra.tree_eq, Tree.sizeAll]
  have inv := run_invariant
    (P := fun u h₁ => Toward h σ u h₁ ∧ u.steps + u.weight h σ ≤ (ta.subst σ).size)
    (fun inv st => ⟨inv.1.step st, (inv.1.step_weight st).trans inv.2⟩)
    ⟨toward_start nc ra rb un, first⟩ rn
  exact inv.2

/-- A run that has not ended has made all the steps that it was given. -/
lemma run_steps (rn : run order fuel u h = .ok (u', h')) (running : u'.status = .running) :
    u'.steps = u.steps + fuel := by
  induction fuel generalizing u h with
  | zero =>
    cases rn
    rfl
  | succ fuel ih =>
    rw [run] at rn
    split at rn
    · split at rn
      · cases rn
      · rename_i hr _ u₁ h₁ st
        obtain ⟨stop, _⟩ | ⟨a, b, rest, new, _, _, _, e⟩ := step_turn st
        · exact absurd hr stop
        · have one : u₁.steps = u.steps + 1 := by
            cases new with
            | none => rw [e]
            | some new => rw [e]
          rw [ih rn, one]
          omega
    · rename_i ended
      cases rn
      exact absurd running ended

/-! ### More fuel -/

variable {s s' : Store} {v : Int} {log log' : Log}

/-- A run that starts at its end does nothing. -/
lemma runLogged_of_ended (ended : u.status ≠ .running) :
    runLogged order v fuel u s log = .ok (u, log, s) := by
  cases fuel with
  | zero => rfl
  | succ fuel => rw [runLogged, if_neg ended]

/-- Fuel that a run does not need changes nothing. -/
theorem runLogged_of_le {more : Nat} (rn : runLogged order v fuel u s log = .ok (u', log', s'))
    (ended : u'.status ≠ .running) (le : fuel ≤ more) :
    runLogged order v more u s log = .ok (u', log', s') := by
  induction fuel generalizing u s log more with
  | zero =>
    cases rn
    exact runLogged_of_ended ended
  | succ fuel ih =>
    obtain ⟨more, rfl⟩ := Nat.exists_eq_add_of_le' (Nat.le_trans (Nat.le_add_left 1 fuel) le)
    rw [runLogged] at rn ⊢
    split at rn
    · rename_i running
      rw [if_pos running]
      split at rn
      · cases rn
      · exact ih rn (Nat.le_of_succ_le_succ le)
    · rename_i stop
      rw [if_neg stop]
      exact rn

/-- Fuel that an unreported run does not need changes nothing. -/
lemma run_of_le {more : Nat} (rn : run order fuel u h = .ok (u', h')) (ended : u'.status ≠ .running)
    (le : fuel ≤ more) : run order more u h = .ok (u', h') := by
  let s : Store := { Store.empty 0 with heap := h }
  have rn : run order fuel u s.heap = .ok (u', h') := rn
  obtain ⟨log', rn'⟩ := exists_runLogged (v := 0) Int.one_nonneg rn .empty
  exact (runLogged_run (runLogged_of_le rn' ended le)).1

/-! ### Success -/

/-- Where no step faults, a run succeeds within as many steps as the common tree under a unifier has
nodes. -/
lemma exists_success (safe : ∀ fuel, ∃ u h', run order fuel (start a b) h = .ok (u, h'))
    (nc : h.NoRefCycle) (ra : h.Reads a ta) (rb : h.Reads b tb) (un : Unifies σ ta tb) :
    ∃ u h', run order (ta.subst σ).size (start a b) h = .ok (u, h') ∧ u.status = .success := by
  obtain ⟨u, h', rn⟩ := safe (ta.subst σ).size
  refine ⟨u, h', rn, ?_⟩
  have le := run_weight nc ra rb un rn
  cases hs : u.status with
  | success => rfl
  | failure => exact absurd hs (run_equalUnder nc ra rb un rn).2.status_ne
  | running =>
    -- all steps were made and a pair is left, so the pairs weighed more than they did
    have made : u.steps = 0 + (ta.subst σ).size := run_steps rn hs
    have left := weight_pos (h := h) (σ := σ) hs
    omega

/-- If there is a unifier, a step binds a variable to a finite term only. -/
lemma Toward.not_bindsEndless (tw : Toward h₀ σ u h) : ¬ u.BindsEndless h := by
  rintro ⟨x, y, hw, cyc⟩
  obtain ⟨a, b, rest, hp, en, _⟩ := write?_eq_some hw
  obtain ⟨ta, tb, ra, rb, _⟩ := tw.within.2 (a, b) (by simp [hp])
  -- the term is at the end of the references from one of the two addresses
  have finite : ∀ {p t}, h₀.Reads p t → h.Ends p y → h.Acyclic y := by
    intro p t rp ep
    obtain ⟨t', rp', _⟩ := rp.after tw.binds tw.noRefCycle tw.solves
    exact Heap.acyclic_iff_reads.mpr ⟨t', rp'.ends ep⟩
  rcases en with ⟨_, ey⟩ | ⟨_, ey⟩
  · exact cyc (finite rb ey)
  · exact cyc (finite ra ey)

/-- **Unification of unifiable terms ends with success.** In a well-formed heap, if a substitution
by finite trees makes the trees at two addresses equal, then a run ends within as many steps as that
common tree has nodes, whatever the order of comparison; it succeeds, builds no cycle, and has made
no more steps than the tree that it leaves at both addresses has nodes. At any verbosity it does the
same while it is reported, unless a symbol of the heap is not known: above 1 the report may then
fail. -/
theorem run_succeeds {s : Store} (wf : s.heap.WellFormed) (va : s.heap.isValid a = true)
    (vb : s.heap.isValid b = true) (ra : s.heap.Reads a ta) (rb : s.heap.Reads b tb)
    (un : Unifies σ ta tb) (order : Order) :
    ∃ u h' t,
      (∀ fuel, (ta.subst σ).size ≤ fuel → run order fuel (start a b) s.heap = .ok (u, h') ∧
        ∀ v log,
          (∃ log', runLogged order v fuel (start a b) s log =
            .ok (u, log', { s with heap := h' })) ∨
          runLogged order v fuel (start a b) s log = .error .noSymbol ∧ 1 < v ∧ ¬ s.Known) ∧
      u.status = .success ∧ h'.Acyclic a ∧ h'.Acyclic b ∧
      h'.Reads a t ∧ h'.Reads b t ∧ u.steps ≤ t.size := by
  have nc := wf.noRefCycle
  have points := wf.points.mono fun _ => Heap.IsValue.isValid
  have safe : ∀ fuel, ∃ u h', run order fuel (start a b) s.heap = .ok (u, h') := by
    intro fuel
    obtain ⟨u, h', rn, _⟩ := run_safe order (.start points nc (fun _ val => val) va vb) fuel
    exact ⟨u, h', rn⟩
  obtain ⟨u, h', rn, ok⟩ := exists_success safe nc ra rb un
  obtain ⟨ta', ra', _⟩ := run_reads nc ra rb un rn ra
  obtain ⟨tb', rb', _⟩ := run_reads nc ra rb un rn rb
  have ac := Heap.acyclic_iff_reads.mpr ⟨ta', ra'⟩
  have bc := Heap.acyclic_iff_reads.mpr ⟨tb', rb'⟩
  -- the bindings made are themselves a unifier, so they bound the steps as well
  obtain ⟨un', ra', rb'⟩ := run_unifies nc ra rb rn ok ac bc
  have le := run_weight nc ra rb un' rn
  refine ⟨u, h', ta.subst h'.tree, ?_, ok, ac, bc, ra', rb', by omega⟩
  intro fuel enough
  have rn' := run_of_le rn (by rw [ok]; nofun) enough
  have toward := toward_start nc ra rb un
  exact ⟨rn', runLogged_of_finite Toward.step Toward.not_bindsEndless toward rn'⟩

/-- The signature `p/2`. -/
def pairSignature : Signature := ⟨⟨0⟩, 2, by decide⟩

/-- The records `p(X, X)` and `p([Y | Y], [1 | Z])`, at the addresses 1 and 2. -/
def sharedLists : Store :=
  { Store.empty 16 with
    heap := ⟨⟨#[.rcd 3, .rcd 6, .sig pairSignature, .ref 4, .ref 4, .sig pairSignature, .lst 9,
      .lst 11, .ref 9, .ref 9, .int 1, .ref 12], [], 16⟩⟩ }

/-- The substitution that takes `X` to `[1 | 1]` and all other variables to 1. -/
def ones (x : Addr) : Tree :=
  if x = 4 then .node .pair [.node (.int 1) [], .node (.int 1) []] else .node (.int 1) []

/-- The same records in a store that knows the name of the signature. -/
def namedLists : Store := { sharedLists with symbols := ⟨#["p"]⟩ }

/-- The records `p(X, X)` and `p([Y | Y], [1 | Z])` are unified within the seven steps that their
common instance allows, and all bindings are reported. -/
theorem run_succeeds_sharedLists :
    ∃ u h' t, run .lastToFirst 7 (start 1 2) namedLists.heap = .ok (u, h') ∧
      (∃ log, runLogged .lastToFirst 2 7 (start 1 2) namedLists .empty =
        .ok (u, log, { namedLists with heap := h' })) ∧
      u.status = .success ∧ h'.Acyclic 1 ∧ h'.Reads 1 t ∧ h'.Reads 2 t ∧ u.steps ≤ t.size := by
  have wf : namedLists.heap.WellFormed := Heap.wellFormed_of_check (by decide)
  have known : namedLists.Known := Store.known_of_check (by decide)
  have ra : namedLists.heap.Reads 1 (.node (.record pairSignature) [.var 4, .var 4]) :=
    .of_parts (show _ = View.node (.record pairSignature) [4, 5] from rfl)
      (.cons (.var rfl) (.cons (.var rfl) .nil))
  have r₇ : namedLists.heap.Reads 7 (.node .pair [.var 9, .var 9]) :=
    .of_parts (show _ = View.node .pair [9, 10] from rfl) (.cons (.var rfl) (.cons (.var rfl) .nil))
  have r₈ : namedLists.heap.Reads 8 (.node .pair [.node (.int 1) [], .var 12]) :=
    .of_parts (show _ = View.node .pair [11, 12] from rfl)
      (.cons (.leaf rfl) (.cons (.var rfl) .nil))
  have rb := Heap.Reads.of_parts (h := namedLists.heap) (p := 2)
    (show _ = View.node (.record pairSignature) [7, 8] from rfl) (.cons r₇ (.cons r₈ .nil))
  have un : Unifies ones (.node (.record pairSignature) [.var 4, .var 4])
      (.node (.record pairSignature)
        [.node .pair [.var 9, .var 9], .node .pair [.node (.int 1) [], .var 12]]) := by
    simp [Unifies, ones]
  obtain ⟨u, h', t, ends, ok, ac, _, ra', rb', le⟩ := run_succeeds wf rfl rfl ra rb un .lastToFirst
  obtain ⟨rn, reported⟩ := ends 7 (by simp [ones, Tree.size, Tree.sizeAll])
  have logged := (reported 2 .empty).resolve_right fun failed => failed.2.2 known
  exact ⟨u, h', t, rn, logged, ok, ac, ra', rb', le⟩

/-- A variable at address 1 and a symbol at address 2 that is not in the table. -/
def unknownSymbol : Store :=
  { Store.empty 2 with heap := ⟨⟨#[.ref 1, .sym ⟨7⟩], [], 2⟩⟩ }

/-- A symbol has to be known if its binding is to be reported: here the variable and the symbol have
a unifier, but at verbosity 2 no run that makes a step succeeds. -/
theorem run_succeeds_unknownSymbol :
    unknownSymbol.heap.WellFormed ∧ unknownSymbol.heap.isValid 1 = true ∧
      unknownSymbol.heap.isValid 2 = true ∧ unknownSymbol.heap.Reads 1 (.var 1) ∧
      unknownSymbol.heap.Reads 2 (.node (.sym ⟨7⟩) []) ∧
      Unifies (fun _ => .node (.sym ⟨7⟩) []) (.var 1) (.node (.sym ⟨7⟩) []) ∧
      ∀ order fuel log,
        runLogged order 2 (fuel + 1) (start 1 2) unknownSymbol log = .error .noSymbol := by
  refine ⟨Heap.wellFormed_of_check (by decide), rfl, rfl, .var rfl, .leaf rfl, by simp [Unifies],
    ?_⟩
  intro order fuel log
  have compared : unknownSymbol.heap.compare? 1 2 = some (.bind 1 2, none) := rfl
  have shown : unknownSymbol.render 2 = .error .noSymbol := by
    rw [Store.render, Store.layout]
    rfl
  have failed : unknownSymbol.logStep 2 (start 1 2) log = .error .noSymbol := by
    simp [Store.logStep, start, compared, Store.logBind, shown]
  have running : (start 1 2).status = .running := rfl
  rw [runLogged, if_pos running, stepLogged, failed]

end Unifier
end TermHeap
