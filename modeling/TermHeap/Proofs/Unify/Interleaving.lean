import Mathlib
import TermHeap.Proofs.Store.Layout
import TermHeap.Proofs.Store.Overwrite
import TermHeap.Proofs.Unify.Termination

/-!
# Steps between other work

A unifier may be left between two steps while terms are laid onto the same heap. A step only reads
and writes cells that the unification can reach, which are older than these terms, and what is laid
depends on no older cell. So a step can change places with the terms laid before it (`step_beside`),
and any interleaving does what its steps alone do, followed by its terms (`perform_eq`). The main
statement is `interleaving_eq_stepsFirst`, which also tells what steps return in the long run.
-/

namespace TermHeap

/-! ### Comparisons in larger heaps -/

namespace Heap

variable {h h' : Heap} {V : Addr → Prop} {a b x y : Addr} {cx cy : Cell}

/-- Two old cells compare in a larger heap as they did before. -/
lemma Within.compareCells_eq (wi : h.Within h') (pt : h.PointsInto V)
    (hx : h.read? x = some cx) (hy : h.read? y = some cy) :
    h'.compareCells x cx y cy = h.compareCells x cx y cy := by
  unfold compareCells
  split
  case h_4 p q =>
    -- both records have signatures, which are the same in the larger heap
    obtain ⟨f, hf, _⟩ := pt.rcd hx
    obtain ⟨g, hg, _⟩ := pt.rcd hy
    rw [compareRecords, compareRecords, signature?_eq_some.mpr hf, signature?_eq_some.mpr hg,
      signature?_eq_some.mpr (wi _ _ hf), signature?_eq_some.mpr (wi _ _ hg)]
  all_goals rfl

/-- Two old addresses compare in a larger heap as they did before. -/
lemma Within.compare?_eq (wi : h.Within h') (pt : h.PointsInto V)
    (val : ∀ p, V p → h.isValid p = true) (nc : h.NoRefCycle) (va : V a) (vb : V b) :
    h'.compare? a b = h.compare? a b := by
  rw [compare?, compare?, wi.deref_eq pt val nc (val a va), wi.deref_eq pt val nc (val b vb)]
  cases ha : h.deref a with
  | error bad => rfl
  | ok found =>
    cases hb : h.deref b with
    | error bad => rfl
    | ok found' =>
      simp only [wi.compareCells_eq pt (deref_eq_ok_iff.mp ha).2 (deref_eq_ok_iff.mp hb).2]

/-- What is to be bound is a cell. -/
lemma isValid_of_compare?_bind {note : Option Notice}
    (hc : h.compare? a b = some (.bind x y, note)) : h.isValid x = true := by
  obtain ⟨e, e', c, c', _, hr, _, hr', hv⟩ := compare?_eq_some hc
  split at hv
  · cases hv
  · unfold compareCells at hv
    split at hv
    · cases hv
      exact isValid_of_read? hr
    · cases hv
      exact isValid_of_read? hr'
    · rw [verdictOf] at hv
      split at hv <;> cases hv
    · rw [compareRecords] at hv
      split at hv
      · cases hv
      · split at hv
        · cases hv
        · dsimp only at hv
          split at hv <;> cases hv
    · cases hv
    · rw [verdictOf] at hv
      split at hv <;> cases hv

end Heap

/-! ### A step in a larger heap -/

namespace Unifier

variable {order : Order} {u u' : Unifier} {h h' k : Heap} {V : Addr → Prop}

/-- A step leaves the heap as it is or overwrites one of its cells, and it does the same in a larger
heap. -/
lemma step_local (sf : Safe V u h) (st : u.step order h = .ok (u', h')) :
    (h' = h ∧ ∀ k, h.Within k → u.step order k = .ok (u', k)) ∨
    ∃ x c, h.isValid x = true ∧ h' = h.write x c ∧
      ∀ k, h.Within k → u.step order k = .ok (u', k.write x c) := by
  unfold step at st ⊢
  split at st
  · rename_i hf
    cases st
    exact .inl ⟨rfl, fun k _ => by rw [if_pos hf]⟩
  · rename_i hf
    simp only [if_neg hf]
    split at st
    · cases st
      exact .inl ⟨rfl, fun k _ => rfl⟩
    · rename_i a b rest hp
      obtain ⟨va, vb⟩ := sf.pending (a, b) (by simp [hp])
      split at st
      · cases st
      · rename_i verdict note hc
        have same : ∀ k, h.Within k → k.compare? a b = some (verdict, note) := fun k wi =>
          (wi.compare?_eq sf.points sf.valid sf.noRefCycle va vb).trans hc
        cases verdict with
        | bind x y =>
          cases st
          refine .inr ⟨x, .ref y, Heap.isValid_of_compare?_bind hc, rfl, ?_⟩
          intro k wi
          simp only [same k wi]
          rfl
        | _ =>
          cases st
          refine .inl ⟨rfl, ?_⟩
          intro k wi
          simp only [same k wi]
          rfl

/-- Where bindings and records are not reported, what is reported of a step depends on the
comparison only. -/
lemma logStep_eq {v : Int} (quiet : v ≤ 1) {s s' : Store} (log : Log)
    (same : ∀ a b rest, u.pending = (a, b) :: rest → s'.heap.compare? a b = s.heap.compare? a b) :
    s'.logStep v u log = s.logStep v u log := by
  have loud : ¬ v > 1 := by omega
  unfold Store.logStep
  split
  · rfl
  · split
    · rfl
    · rename_i a b rest hp
      rw [same a b rest hp]
      split
      · rfl
      · rw [Store.logBind, Store.logBind, if_neg loud, if_neg loud]
      · rename_i notice _ _
        cases notice with
        | records f g => simp only [Store.logNotice, if_neg loud]
        | _ => rfl
      · rfl

/-- What a step logs is what is reported of it. -/
lemma logStep_of_stepLogged {v : Int} {s s' : Store} {log log' : Log}
    (st : u.stepLogged order v s log = .ok (u', log', s')) : s.logStep v u log = .ok log' := by
  rw [stepLogged] at st
  split at st
  · cases st
  · rename_i hl
    dsimp only at st
    split at st
    · cases st
    · cases st
      exact hl

/-- A step that is made and reported is a logged step. -/
lemma stepLogged_of_logStep {v : Int} {s : Store} {log log' : Log}
    (hl : s.logStep v u log = .ok log') (st : u.step order s.heap = .ok (u', h')) :
    u.stepLogged order v s log = .ok (u', log', { s with heap := h' }) := by
  simp only [stepLogged, hl, st]

end Unifier

/-! ### Steps and terms -/

/-- A unifier at work on a store, with what was reported. -/
structure Work where
  unifier : Unifier
  store : Store
  log : Log

/-- What can be done next: a step of the unifier, or laying a term onto the heap. -/
inductive Act where
  | step
  | add (t : Term)

/-- What acts return: the status and the number of steps after each step, and the address of each
term. -/
structure Answers where
  steps : List (Status × Nat)
  roots : List Addr

namespace Act

/-- Whether an act is a step. -/
def isStep : Act → Bool
  | .step => true
  | .add _ => false

/-- The term that is laid, if any. -/
def term? : Act → Option Term
  | .step => none
  | .add t => some t

/-- The same acts in another order: first the steps, and then the terms one after the other. -/
def stepsFirst (acts : List Act) : List Act :=
  acts.filter isStep ++ (acts.filterMap term?).map .add

/-- Moving the steps to the front keeps their number. -/
lemma countP_stepsFirst (acts : List Act) :
    (stepsFirst acts).countP isStep = acts.countP isStep := by
  have adds : ((acts.filterMap term?).map .add).countP isStep = 0 := by
    simp [List.countP_eq_zero, isStep]
  simp [stepsFirst, adds, List.countP_filter]

/-- Moving the steps to the front keeps the terms and their order. -/
lemma filterMap_stepsFirst (acts : List Act) :
    (stepsFirst acts).filterMap term? = acts.filterMap term? := by
  have steps : (acts.filter isStep).filterMap term? = [] := by
    rw [List.filterMap_eq_nil_iff]
    rintro (_ | t) mem
    · rfl
    · simp [isStep] at mem
  have adds : ∀ ts : List Term, (ts.map .add).filterMap term? = ts := by
    intro ts
    rw [List.filterMap_map]
    exact List.filterMap_some
  rw [stepsFirst, List.filterMap_append, steps, adds, List.nil_append]

/-- Moving the steps to the front adds no terms. -/
lemma add_mem_stepsFirst {acts : List Act} {t : Term} (mem : .add t ∈ stepsFirst acts) :
    .add t ∈ acts := by
  rcases List.mem_append.mp mem with mem | mem
  · exact (List.mem_filter.mp mem).1
  · obtain ⟨u, mem, e⟩ := List.mem_map.mp mem
    cases e
    obtain ⟨act, mem, e⟩ := List.mem_filterMap.mp mem
    cases act with
    | step => cases e
    | add v =>
      cases e
      exact mem

end Act

namespace Work

/-- The work of unifying the terms at two addresses. -/
def start (s : Store) (log : Log) (a b : Addr) : Work := ⟨.start a b, s, log⟩

/-- The status of the unifier. -/
def status (w : Work) : Status := w.unifier.status

/-- Make a step. -/
def step (order : Order) (v : Int) (w : Work) : Except Fault Work :=
  match w.unifier.stepLogged order v w.store w.log with
  | .error e => .error e
  | .ok (unifier, log, store) => .ok { unifier, store, log }

/-- Make steps until the unifier has ended, or a number of them. -/
def run (order : Order) (v : Int) (fuel : Nat) (w : Work) : Except Fault Work :=
  match w.unifier.runLogged order v fuel w.store w.log with
  | .error e => .error e
  | .ok (unifier, log, store) => .ok { unifier, store, log }

/-- Lay a term onto the heap. -/
def add (v : Int) (w : Work) (t : Term) : Except Fault (Addr × Work) :=
  match w.store.addTermLogged v t w.log with
  | .error e => .error e
  | .ok (root, log, store) => .ok (root, { w with store, log })

/-- Carry out acts in turn. -/
def perform (order : Order) (v : Int) (w : Work) : List Act → Except Fault (Answers × Work)
  | [] => .ok (⟨[], []⟩, w)
  | .step :: acts =>
    match w.step order v with
    | .error e => .error e
    | .ok w =>
      match w.perform order v acts with
      | .error e => .error e
      | .ok (answers, w') =>
        .ok ({ answers with steps := (w.status, w.unifier.steps) :: answers.steps }, w')
  | .add t :: acts =>
    match w.add v t with
    | .error e => .error e
    | .ok (root, w) =>
      match w.perform order v acts with
      | .error e => .error e
      | .ok (answers, w') => .ok ({ answers with roots := root :: answers.roots }, w')

variable {order : Order} {v : Int} {w w' : Work} {s s' : Store} {V : Addr → Prop} {t : Term}
  {ts : List Term} {roots : List Addr} {acts : List Act}

/-- A step of safe work leaves safe work. -/
lemma exists_step (order : Order) (quiet : v ≤ 1) (sf : Safe V w.unifier w.store.heap) :
    ∃ w', w.step order v = .ok w' ∧ Safe V w'.unifier w'.store.heap := by
  obtain ⟨u', h', st, sf'⟩ := Unifier.step_safe order sf
  obtain ⟨log', st'⟩ := Unifier.exists_stepLogged quiet st w.log
  rw [step, st']
  exact ⟨_, rfl, sf'⟩

/-- A step leaves the store as it is or overwrites one of its cells, and it does the same after
terms were laid. -/
lemma step_beside (quiet : v ≤ 1) (sf : Safe V w.unifier w.store.heap)
    (st : w.step order v = .ok w') (ha : w.store.addTerms ts = .ok (roots, s)) :
    ∃ s', w'.store.addTerms ts = .ok (roots, s') ∧
      { w with store := s }.step order v = .ok { w' with store := s' } := by
  obtain ⟨u, s₀, log⟩ := w
  obtain ⟨u', s₀', log'⟩ := w'
  have st' : u.stepLogged order v s₀ log = .ok (u', log', s₀') := by
    rw [step] at st
    split at st
    · cases st
    · rename_i hs
      cases st
      exact hs
  obtain ⟨hs, es, ev⟩ := Unifier.stepLogged_step st'
  have wi : s₀.heap.Within s.heap := fun _ _ => Store.read?_addTerms ha
  have hl' : s.logStep v u log = .ok log' := by
    rw [← Unifier.logStep_of_stepLogged st']
    apply Unifier.logStep_eq quiet
    intro a b rest hp
    obtain ⟨va, vb⟩ := sf.pending (a, b) (by simp [hp])
    exact wi.compare?_eq sf.points sf.valid sf.noRefCycle va vb
  rcases Unifier.step_local sf hs with ⟨eh, same⟩ | ⟨x, c, vx, eh, same⟩
  · obtain rfl : s₀' = s₀ := Store.ext eh es ev
    refine ⟨s, ha, ?_⟩
    rw [step, Unifier.stepLogged_of_logStep hl' (same _ wi)]
  · obtain rfl : s₀' = s₀.overwrite x c := Store.ext eh es ev
    refine ⟨s.overwrite x c, ?_, ?_⟩
    · rw [Store.addTerms_overwrite vx, ha]
      rfl
    · rw [step, Unifier.stepLogged_of_logStep hl' (same _ wi)]
      rfl

/-! ### Steps alone -/

/-- Safe works of which each is the one before after a step. -/
structure Stepping (order : Order) (v : Int) (V : Addr → Prop) (ws : Nat → Work) : Prop where
  safe : ∀ n, Safe V (ws n).unifier (ws n).store.heap
  next : ∀ n, (ws n).step order v = .ok (ws (n + 1))

variable {ws : Nat → Work}

/-- Safe work can be stepped for ever. -/
lemma exists_stepping (order : Order) (quiet : v ≤ 1) (sf : Safe V w.unifier w.store.heap) :
    ∃ ws, ws 0 = w ∧ Stepping order v V ws := by
  have total : ∀ w : { w : Work // Safe V w.unifier w.store.heap },
      ∃ w' : { w : Work // Safe V w.unifier w.store.heap }, w.1.step order v = .ok w'.1 := by
    rintro ⟨w, sf⟩
    obtain ⟨w', st, sf'⟩ := exists_step order quiet sf
    exact ⟨⟨w', sf'⟩, st⟩
  choose next st using total
  refine ⟨fun n => (next^[n] ⟨w, sf⟩).1, rfl, fun n => (next^[n] ⟨w, sf⟩).2, ?_⟩
  intro n
  rw [Function.iterate_succ_apply']
  exact st _

/-- A step after the end changes nothing. -/
lemma step_of_ended (order : Order) (v : Int) (ended : w.status ≠ .running) :
    w.step order v = .ok w := by
  have rest : w.store.logStep v w.unifier w.log = .ok w.log ∧
      w.unifier.step order w.store.heap = .ok (w.unifier, w.store.heap) := by
    rw [Store.logStep, Unifier.step]
    split
    · exact ⟨rfl, rfl⟩
    · rename_i hf
      cases hp : w.unifier.pending with
      | nil => exact ⟨rfl, rfl⟩
      | cons pq rest => exact absurd (by simp [status, Unifier.status, hf, hp]) ended
  rw [step, Unifier.stepLogged_of_logStep rest.1 rest.2]

/-- Steps find the unifier running for ever, or they find it running until it ends and then
change nothing any more. -/
lemma Stepping.runs_or_ends (sp : Stepping order v V ws) :
    (∀ n, (ws n).status = .running) ∨
    ∃ k final, final ≠ .running ∧ (∀ n < k, (ws n).status = .running) ∧
      ∀ n ≥ k, (ws n).status = final ∧ ws n = ws k := by
  by_cases ended : ∃ n, (ws n).status ≠ .running
  · right
    refine ⟨Nat.find ended, _, Nat.find_spec ended, ?_, ?_⟩
    · intro n lt
      exact not_not.mp (Nat.find_min ended lt)
    · intro n le
      have same : ws n = ws (Nat.find ended) := by
        induction n, le using Nat.le_induction with
        | base => rfl
        | succ n _ ih =>
          have stays := step_of_ended order v (Nat.find_spec ended)
          have nx := sp.next n
          rw [ih, stays] at nx
          exact (Except.ok.inj nx).symm
      exact ⟨congrArg status same, same⟩
  · left
    intro n
    by_contra ne
    exact ended ⟨n, ne⟩

/-- A run makes a step and goes on, unless the unifier has ended. -/
lemma run_succ {fuel : Nat} : w.run order v (fuel + 1) =
    if w.status = .running then
      match w.step order v with
      | .error e => .error e
      | .ok w => w.run order v fuel
    else .ok w := by
  rw [run, Unifier.runLogged]
  by_cases running : w.status = .running
  · have running' : w.unifier.status = .running := running
    rw [if_pos running, if_pos running', step]
    cases w.unifier.stepLogged order v w.store w.log with
    | error e => rfl
    | ok r => rfl
  · have stop : w.unifier.status ≠ .running := running
    rw [if_neg running, if_neg stop]

/-- A run of the work is one of its unifier. -/
lemma run_eq_ok {fuel : Nat} : w.run order v fuel = .ok w' ↔
    w.unifier.runLogged order v fuel w.store w.log = .ok (w'.unifier, w'.log, w'.store) := by
  rw [run]
  cases w.unifier.runLogged order v fuel w.store w.log with
  | error e => exact ⟨nofun, nofun⟩
  | ok r =>
    obtain ⟨u, log, s⟩ := r
    constructor
    · rintro ⟨⟩
      rfl
    · rintro ⟨⟩
      rfl

/-- Fuel that it does not need changes nothing. -/
lemma run_of_le {fuel more : Nat} (rn : w.run order v fuel = .ok w')
    (ended : w'.status ≠ .running) (le : fuel ≤ more) : w.run order v more = .ok w' :=
  run_eq_ok.mpr (Unifier.runLogged_of_le (run_eq_ok.mp rn) ended le)

/-- A run that ends comes to the same end after any number of steps. -/
lemma Stepping.run_eq {fuel more : Nat} (sp : Stepping order v V ws)
    (rn : (ws 0).run order v fuel = .ok w') (ended : w'.status ≠ .running) (n : Nat)
    (le : fuel ≤ more) : (ws n).run order v more = .ok w' := by
  induction n with
  | zero => exact run_of_le rn ended le
  | succ n ih =>
    by_cases running : (ws n).status = .running
    · -- the first step of the run from before is the step that was made
      have again := run_of_le ih ended (Nat.le_succ more)
      rw [run_succ, if_pos running, sp.next n] at again
      exact again
    · have stays := step_of_ended order v running
      rw [sp.next n] at stays
      rw [Except.ok.inj stays]
      exact ih

/-! ### Interleavings -/

/-- What the steps after the `m`-th return. -/
def answersFrom (ws : Nat → Work) (m n : Nat) : List (Status × Nat) :=
  (List.range' (m + 1) n).map fun i => ((ws i).status, (ws i).unifier.steps)

/-- Where bindings are not reported, a term that can be laid is laid. -/
lemma add_of_addTerm {root : Addr} (quiet : v ≤ 1) (ha : w.store.addTerm t = .ok (root, s)) :
    w.add v t = .ok (root, { w with store := s }) := by
  have loud : ¬ v > 1 := by omega
  simp only [add, Store.addTermLogged, ha, Bind.bind, Except.bind, if_neg loud]
  rfl

/-- Interleaved acts do what their steps alone do, and then their terms are laid. -/
theorem perform_eq (quiet : v ≤ 1) (sp : Stepping order v V ws) {m : Nat}
    (fit : ∀ t, .add t ∈ acts → t.fits = true)
    (ha : (ws m).store.addTerms ts = .ok (roots, s)) :
    ∃ roots' s', (ws (m + acts.countP Act.isStep)).store.addTerms (ts ++ acts.filterMap Act.term?)
        = .ok (roots ++ roots', s') ∧
      { ws m with store := s }.perform order v acts =
        .ok (⟨answersFrom ws m (acts.countP Act.isStep), roots'⟩,
          { ws (m + acts.countP Act.isStep) with store := s' }) := by
  induction acts generalizing m ts roots s with
  | nil => exact ⟨[], s, by simpa using ha, rfl⟩
  | cons act acts ih =>
    have fit' : ∀ t, .add t ∈ acts → t.fits = true := fun t mem => fit t (by simp [mem])
    cases act with
    | step =>
      obtain ⟨s₁, ha₁, st⟩ := step_beside quiet (sp.safe m) (sp.next m) ha
      obtain ⟨roots', s', ha', pf⟩ := ih fit' ha₁
      have count : m + (Act.step :: acts).countP Act.isStep
          = m + 1 + acts.countP Act.isStep := by
        rw [List.countP_cons_of_pos rfl, Nat.add_assoc, Nat.add_comm 1]
      rw [count]
      refine ⟨roots', s', ha', ?_⟩
      rw [perform, st]
      simp only [pf]
      rw [List.countP_cons_of_pos rfl]
      rfl
    | add t =>
      obtain ⟨root, s₁, ht⟩ := Store.exists_addTerm s (fit t (by simp))
      obtain ⟨roots', s', ha', pf⟩ := ih fit' (Store.addTerms_snoc ha ht)
      have count : (Act.add t :: acts).countP Act.isStep = acts.countP Act.isStep := by
        rw [List.countP_cons_of_neg (by simp [Act.isStep])]
      rw [count]
      refine ⟨root :: roots', s', ?_, ?_⟩
      · simpa [Act.term?] using ha'
      · have added := add_of_addTerm (w := { ws m with store := s }) quiet ht
        rw [perform, added]
        simp only [pf]

/-- The unification of two values may be interleaved with the laying of terms: the steps return the
same, the terms get the same addresses, and the unifier, the store and the log end up the same as if
all steps were made first. Steps return that the unifier is running until it ends, if it does, and
from then on they change nothing. A run that ends comes to the same end after any number of
steps. -/
theorem interleaving_eq_stepsFirst {a b : Addr} (order : Order) (quiet : v ≤ 1)
    (wf : s.heap.WellFormed) (va : s.heap.IsValue a) (vb : s.heap.IsValue b) (log : Log) :
    ∃ ws : Nat → Work, ws 0 = start s log a b ∧ (∀ n, (ws n).step order v = .ok (ws (n + 1))) ∧
      (∀ acts, (∀ t, .add t ∈ acts → t.fits = true) →
        ∃ roots w', (ws 0).perform order v acts
            = .ok (⟨answersFrom ws 0 (acts.countP Act.isStep), roots⟩, w') ∧
          (ws 0).perform order v (Act.stepsFirst acts) = (ws 0).perform order v acts) ∧
      ((∀ n, (ws n).status = .running) ∨
        ∃ k final, final ≠ .running ∧ (∀ n < k, (ws n).status = .running) ∧
          ∀ n ≥ k, (ws n).status = final ∧ ws n = ws k) ∧
      ∀ fuel w', (ws 0).run order v fuel = .ok w' → w'.status ≠ .running →
        ∀ n, ∀ more ≥ fuel, (ws n).run order v more = .ok w' := by
  obtain ⟨ws, zero, sp⟩ := exists_stepping (w := start s log a b) order quiet (wf.safe va vb)
  refine ⟨ws, zero, sp.next, ?_, sp.runs_or_ends, ?_⟩
  case refine_2 =>
    intro fuel w' rn ended n more le
    exact sp.run_eq rn ended n le
  intro acts fit
  have none : (ws 0).store.addTerms [] = .ok ([], (ws 0).store) := rfl
  obtain ⟨roots, s₁, ha, pf⟩ := perform_eq quiet sp fit none
  obtain ⟨roots', s₁', ha', pf'⟩ :=
    perform_eq quiet sp (fun t mem => fit t (Act.add_mem_stepsFirst mem)) none
  -- both times the same number of steps is made and the same terms are laid
  rw [Act.countP_stepsFirst] at ha' pf'
  rw [Act.filterMap_stepsFirst, ha] at ha'
  obtain ⟨er, es⟩ := Prod.mk.inj (Except.ok.inj ha')
  rw [List.nil_append, List.nil_append] at er
  exact ⟨roots, _, pf, by rw [pf, pf', er, es]⟩

/-- Terms are laid before, between and after three steps. -/
def betweenSteps : List Act :=
  [.add (.var "X"), .step, .step, .add (.record "f" [.var "X"]), .step, .add (.int 1)]

/-- The unification of `p(X, X)` with `p([Y | Y], [1 | Z])` is interleaved with terms. -/
theorem interleaving_eq_stepsFirst_sharedLists :
    ∃ w', (start Unifier.sharedLists .empty 1 2).perform .lastToFirst 0 betweenSteps
        = .ok (⟨[(.running, 1), (.running, 2), (.running, 3)], [13, 14, 17]⟩, w') ∧
      (start Unifier.sharedLists .empty 1 2).perform .lastToFirst 0
          [.step, .step, .step, .add (.var "X"), .add (.record "f" [.var "X"]), .add (.int 1)]
        = .ok (⟨[(.running, 1), (.running, 2), (.running, 3)], [13, 14, 17]⟩, w') := by
  have wf : Unifier.sharedLists.heap.WellFormed := Heap.wellFormed_of_check (by decide)
  obtain ⟨ws, zero, nx, same, _⟩ :=
    interleaving_eq_stepsFirst (v := 0) (a := 1) (b := 2) .lastToFirst (by decide) wf
      (Heap.isValue_iff.mpr (by decide)) (Heap.isValue_iff.mpr (by decide)) .empty
  have fit : ∀ t, .add t ∈ betweenSteps → t.fits = true := by
    intro t mem
    simp [betweenSteps] at mem
    rcases mem with rfl | rfl | rfl <;> decide
  obtain ⟨roots, w', pf, first⟩ := same betweenSteps fit
  have answers : ((start Unifier.sharedLists .empty 1 2).perform .lastToFirst 0 betweenSteps).map
      Prod.fst = .ok ⟨[(.running, 1), (.running, 2), (.running, 3)], [13, 14, 17]⟩ := by cbv
  rw [zero] at pf first
  rw [pf] at answers first
  have e : _ = _ := Except.ok.inj answers
  exact ⟨w', by rw [pf, ← e], by rw [← e]; exact first⟩

end Work
end TermHeap
