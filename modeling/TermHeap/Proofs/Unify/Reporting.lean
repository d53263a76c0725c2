import TermHeap.Proofs.Store.PrinterRun
import TermHeap.Proofs.Unify.Safety
import TermHeap.Proofs.Unify.Writes

/-!
# Reports of unification

A step that can be made can be reported as well, with two exceptions, which need a verbosity above
1: a symbol that is to be shown is not in the table, or a variable is bound to a term without end
(`Hinders`). This is so for every step (`stepLogged_cases`), and from that for every run
(`runLogged_cases`). What else is known of the run rules out one exception or both: a low verbosity
(`exists_runLogged`), a consistent store (`runLogged_safe`), or finite terms
(`runLogged_of_finite`).
-/

namespace TermHeap

namespace Unifier

/-- The next step binds a variable to a term without end. -/
def BindsEndless (u : Unifier) (h : Heap) : Prop :=
  ∃ x y, u.write? h = some (x, y) ∧ ¬ h.Acyclic y

end Unifier

namespace Store

variable {order : Order} {s : Store} {v : Int} {log : Log} {x y a b : Addr} {f g : Signature}
  {vd : Verdict} {note : Notice} {e : Fault} {u u' : Unifier} {h h' : Heap} {endless : Prop}

/-- The fault `e` keeps something from being reported at the verbosity `v`: there is a cell with an
unknown symbol, or something has no end. -/
def Hinders (s : Store) (v : Int) (endless : Prop) (e : Fault) : Prop :=
  1 < v ∧ (e = .noSymbol ∧ ¬ s.Known ∨ e = .cyclic ∧ endless)

/-- If there was an unknown symbol after bindings, there was one before. -/
lemma Hinders.of_binds {endless' : Prop} (hd : Hinders { s with heap := h } v endless e)
    (bd : s.heap.Binds h) (sub : endless → endless') : s.Hinders v endless' e := by
  refine ⟨hd.1, hd.2.imp ?_ (And.imp_right sub)⟩
  rintro ⟨rfl, unknown⟩
  exact ⟨rfl, fun kn => unknown (kn.binds bd)⟩

/-- A binding that is not reported is one to a term that cannot be shown. -/
lemma logBind_error (failed : s.logBind v x y log = .error e) :
    s.Hinders v (¬ s.heap.Acyclic y) e := by
  rw [logBind] at failed
  split at failed
  · rename_i loud
    split at failed
    · rename_i hr
      cases failed
      exact ⟨loud, render_error hr⟩
    · cases failed
  · cases failed

/-- The signatures that a comparison reports are in the heap. -/
lemma signatures_of_compare? (hc : h.compare? a b = some (vd, some (.records f g))) :
    ∃ p q, h.read? p = some (.sig f) ∧ h.read? q = some (.sig g) := by
  rw [Heap.compare?] at hc
  split at hc
  · have hc := congrArg Prod.snd (Option.some.inj hc)
    split at hc
    · cases hc
    · -- of the ways to compare two cells only that of two records reports signatures
      unfold Heap.compareCells at hc
      split at hc
      case h_4 =>
        rw [Heap.compareRecords] at hc
        split at hc
        · cases hc
        · split at hc
          · cases hc
          · rename_i hf _ _ hg
            cases hc
            exact ⟨_, _, Heap.signature?_eq_some.mp hf, Heap.signature?_eq_some.mp hg⟩
      all_goals cases hc
  · cases hc

/-- A notice of a comparison that is not reported is one of a signature with an unknown symbol. -/
lemma logNotice_error (hc : s.heap.compare? a b = some (vd, some note))
    (failed : s.logNotice v log note = .error e) : s.Hinders v endless e := by
  cases note with
  | signatures => cases failed
  | badRecord => cases failed
  | records f g =>
    obtain ⟨p, q, hp, hq⟩ := signatures_of_compare? hc
    rw [logNotice] at failed
    split at failed
    · rename_i loud
      cases hf : s.symbols.name? f.name with
      | none =>
        simp only [cellText, signatureText_of_unknown hf] at failed
        cases failed
        exact ⟨loud, .inl ⟨rfl, not_known_of_sig hp hf⟩⟩
      | some n =>
        cases hg : s.symbols.name? g.name with
        | none =>
          simp only [cellText, signatureText_of_name? hf, signatureText_of_unknown hg] at failed
          cases failed
          exact ⟨loud, .inl ⟨rfl, not_known_of_sig hq hg⟩⟩
        | some m =>
          simp only [cellText, signatureText_of_name? hf, signatureText_of_name? hg] at failed
          cases failed
    · cases failed

/-- A step that can be made is reported, unless something hinders that. -/
lemma logStep_error (st : u.step order s.heap = .ok (u', h'))
    (failed : s.logStep v u log = .error e) : s.Hinders v (u.BindsEndless s.heap) e := by
  rw [logStep] at failed
  rw [Unifier.step] at st
  -- only bindings and comparisons of records are reported in a way that can fail
  split at failed
  · cases failed
  · rename_i hf
    split at failed
    · cases failed
    · rename_i a b rest hp
      simp only [hp, if_neg hf] at st
      split at failed
      · rename_i none
        rw [none] at st
        cases st
      · rename_i x y note hc
        have written : u.write? s.heap = some (x, y) := by
          simp only [Unifier.write?, if_neg hf, hp, hc]
        obtain ⟨loud, unknown | ⟨rfl, cyc⟩⟩ := logBind_error failed
        · exact ⟨loud, .inl unknown⟩
        · exact ⟨loud, .inr ⟨rfl, x, y, written, cyc⟩⟩
      · rename_i hc
        exact logNotice_error hc failed
      · cases failed

end Store

namespace Unifier

open Store (Hinders)

variable {order : Order} {u u' : Unifier} {s : Store} {h h' : Heap} {v : Int} {fuel : Nat}
  {V : Addr → Prop} {P : Unifier → Heap → Prop}

/-- A step that can be made is made and reported, unless something hinders that. -/
theorem stepLogged_cases (st : u.step order s.heap = .ok (u', h')) (v : Int) (log : Log) :
    (∃ log', u.stepLogged order v s log = .ok (u', log', { s with heap := h' })) ∨
    ∃ e, u.stepLogged order v s log = .error e ∧ s.Hinders v (u.BindsEndless s.heap) e := by
  rw [stepLogged]
  cases hl : s.logStep v u log with
  | error e => exact .inr ⟨e, rfl, Store.logStep_error st hl⟩
  | ok log' =>
    simp only [st]
    exact .inl ⟨log', rfl⟩

/-- A run that can be made is made and reported, unless something hinders that on its way. There
holds whatever each step keeps. -/
theorem runLogged_cases (keep : ∀ {u h u' h'}, P u h → u.step order h = .ok (u', h') → P u' h')
    (inv : P u s.heap) (rn : run order fuel u s.heap = .ok (u', h')) (v : Int) (log : Log) :
    (∃ log', runLogged order v fuel u s log = .ok (u', log', { s with heap := h' })) ∨
    ∃ e, runLogged order v fuel u s log = .error e ∧
      s.Hinders v (∃ u h, P u h ∧ u.BindsEndless h) e := by
  -- bindings add no symbols, so what is unknown on the way was unknown at first
  induction fuel generalizing u s log with
  | zero =>
    cases rn
    exact .inl ⟨log, rfl⟩
  | succ fuel ih =>
    rw [run] at rn
    rw [runLogged]
    split at rn
    · rename_i running
      rw [if_pos running]
      split at rn
      · cases rn
      · rename_i u₁ h₁ st
        rcases stepLogged_cases st v log with ⟨log₁, st'⟩ | ⟨e, st', hd⟩
        · rw [st']
          rcases ih (s := { s with heap := h₁ }) (keep inv st) rn log₁ with ok | ⟨e, rn', hd⟩
          · exact .inl ok
          · exact .inr ⟨e, rn', hd.of_binds (step_binds st).1 id⟩
        · rw [st']
          exact .inr ⟨e, rfl, hd.of_binds (.refl _) fun cyc => ⟨u, s.heap, inv, cyc⟩⟩
    · rename_i stop
      cases rn
      exact .inl ⟨log, by rw [if_neg stop]⟩

/-! ### What rules out the exceptions -/

/-- Where bindings and records are not reported, a step that can be made can be reported. -/
lemma exists_stepLogged (quiet : v ≤ 1) (st : u.step order s.heap = .ok (u', h')) (log : Log) :
    ∃ log', u.stepLogged order v s log = .ok (u', log', { s with heap := h' }) := by
  rcases stepLogged_cases st v log with ok | ⟨_, _, loud, _⟩
  · exact ok
  · exact absurd loud (Int.not_lt.mpr quiet)

/-- Where bindings and records are not reported, a run that can be made can be reported. -/
theorem exists_runLogged (quiet : v ≤ 1) (rn : run order fuel u s.heap = .ok (u', h')) (log : Log) :
    ∃ log', runLogged order v fuel u s log = .ok (u', log', { s with heap := h' }) := by
  rcases runLogged_cases (P := fun _ _ => True) (fun _ _ => trivial) trivial rn v log with
    ok | ⟨_, _, loud, _⟩
  · exact ok
  · exact absurd loud (Int.not_lt.mpr quiet)

/-- Where variables are bound to finite terms only, just an unknown symbol keeps a run from being
reported. -/
theorem runLogged_of_finite
    (keep : ∀ {u h u' h'}, P u h → u.step order h = .ok (u', h') → P u' h')
    (finite : ∀ {u h}, P u h → ¬ u.BindsEndless h) (inv : P u s.heap)
    (rn : run order fuel u s.heap = .ok (u', h')) (v : Int) (log : Log) :
    (∃ log', runLogged order v fuel u s log = .ok (u', log', { s with heap := h' })) ∨
    runLogged order v fuel u s log = .error .noSymbol ∧ 1 < v ∧ ¬ s.Known := by
  rcases runLogged_cases keep inv rn v log with
    ok | ⟨e, failed, loud, ⟨rfl, unknown⟩ | ⟨_, u, h, inv', cyc⟩⟩
  · exact .inl ok
  · exact .inr ⟨failed, loud, unknown⟩
  · exact absurd cyc (finite inv')

/-- A logged step of a safe unification leaves a consistent store and a safe unification, or it
stops at a term without end that is to be reported. -/
theorem stepLogged_safe (order : Order) (v : Int) (log : Log) (cs : s.Consistent V)
    (sf : Safe V u s.heap) :
    (∃ u' log' s', u.stepLogged order v s log = .ok (u', log', s') ∧ s'.Consistent V ∧
      Safe V u' s'.heap ∧ s.heap.Binds s'.heap) ∨
    u.stepLogged order v s log = .error .cyclic ∧ 1 < v := by
  obtain ⟨u', h', st, sf'⟩ := step_safe order sf
  have bd := (step_binds st).1
  rcases stepLogged_cases st v log with ⟨log', ok⟩ | ⟨e, failed, loud, ⟨_, unknown⟩ | ⟨rfl, _⟩⟩
  · exact .inl ⟨u', log', _, ok, cs.binds bd sf'.points sf'.noRefCycle, sf', bd⟩
  · exact absurd cs.known unknown
  · exact .inr ⟨failed, loud⟩

/-- A logged run of a safe unification, however long it goes on. -/
theorem runLogged_safe (order : Order) (v : Int) (fuel : Nat) (log : Log) (cs : s.Consistent V)
    (sf : Safe V u s.heap) :
    (∃ u' log' s', u.runLogged order v fuel s log = .ok (u', log', s') ∧ s'.Consistent V ∧
      Safe V u' s'.heap ∧ s.heap.Binds s'.heap) ∨
    u.runLogged order v fuel s log = .error .cyclic ∧ 1 < v := by
  obtain ⟨u', h', rn, sf'⟩ := run_safe order sf fuel
  have bd := (run_binds rn).1
  rcases runLogged_cases (P := fun _ _ => True) (fun _ _ => trivial) trivial rn v log with
    ⟨log', ok⟩ | ⟨e, failed, loud, ⟨_, unknown⟩ | ⟨rfl, _⟩⟩
  · exact .inl ⟨u', log', _, ok, cs.binds bd sf'.points sf'.noRefCycle, sf', bd⟩
  · exact absurd cs.known unknown
  · exact .inr ⟨failed, loud⟩

end Unifier
end TermHeap
