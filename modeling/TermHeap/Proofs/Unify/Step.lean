import TermHeap.Proofs.Heap.Binding
import TermHeap.Unify.Log

/-!
# What a step of unification can do

`Turn h a b new h'` lists what working off the pair `(a, b)` on the heap `h` can lead to: the pair
needs nothing, a variable is bound, the parts are to be made equal in its place, or the two clash.
Every step of a unifier is such a turn (`step_turn`), so what all turns keep is kept by whole runs
(`run_invariant`). Reporting changes nothing in this: a logged run is a run (`runLogged_run`).
-/

namespace TermHeap

/-- What working off the pair `(a, b)` can lead to: the pairs that take its place and the heap
afterwards, with no pairs at all for a clash. -/
inductive Turn (h : Heap) (a b : Addr) : Option (List (Addr × Addr)) → Heap → Prop where
  | same {e : Addr} : h.Ends a e → h.Ends b e → Turn h a b (some []) h
  | bind {x y : Addr} : (h.Ends a x ∧ h.Ends b y ∨ h.Ends b x ∧ h.Ends a y) → y ≠ x →
      h.Unbound x → h.isValid y = true → Turn h a b (some []) (h.write x (.ref y))
  | parts {l : Head} {ps qs : List Addr} {new : List (Addr × Addr)} :
      h.view a = .node l ps → h.view b = .node l qs → ps.length = qs.length →
      new.Perm (ps.zip qs) → Turn h a b (some new) h
  | clash {l k : Head} {ps qs : List Addr} :
      h.view a = .node l ps → h.view b = .node k qs → l ≠ k → Turn h a b none h

namespace Heap

variable {h : Heap} {a b : Addr} {ca cb : Cell} {l k : Head} {ps qs : List Addr}

/-- What comparing two terms that are no variables comes to: a clash of their heads, nothing if they
have no parts, or else the comparison of their parts. -/
inductive Compared (l k : Head) (ps qs : List Addr) : Verdict → Prop where
  | clash : l ≠ k → Compared l k ps qs .clash
  | same : l = k → ps = [] → qs = [] → Compared l k ps qs .same
  | parts {x y n} : l = k → ps = List.range' x n → qs = List.range' y n →
      Compared l k ps qs (.parts x y n)

/-- Records clash unless their signatures are equal. A record without a signature clashes with
every other record. -/
lemma compareRecords_compared {x y : Addr} (ne : a ≠ b)
    (ha : h.cellView a (.rcd x) = .node l ps) (hb : h.cellView b (.rcd y) = .node k qs) :
    Compared l k ps qs (h.compareRecords a x b y).1 := by
  rw [compareRecords]
  rw [cellView] at ha hb
  cases hf : h.signature? x with
  | none =>
    rw [hf] at ha
    cases ha
    apply Compared.clash
    split at hb <;> cases hb
    · simp
    · simpa using ne
  | some f =>
    rw [hf] at ha
    cases ha
    cases hg : h.signature? y with
    | none =>
      rw [hg] at hb
      cases hb
      exact .clash (by simp)
    | some g =>
      rw [hg] at hb
      cases hb
      by_cases e : f = g
      · subst e
        simpa using .parts rfl rfl rfl
      · simpa [e] using Compared.clash (by simpa using e)

/-- Cells that are no variables clash if their heads differ, and else ask for their parts. -/
lemma compareCells_compared (ne : a ≠ b) (ha : h.cellView a ca = .node l ps)
    (hb : h.cellView b cb = .node k qs) :
    Compared l k ps qs (h.compareCells a ca b cb).1 := by
  unfold compareCells
  split
  · cases ha
  · cases hb
  · rename_i f g
    cases ha; cases hb
    by_cases e : f = g
    · subst e
      simpa [verdictOf] using .same rfl rfl rfl
    · simpa [verdictOf, e] using Compared.clash (by simpa using e)
  · exact compareRecords_compared ne ha hb
  · cases ha; cases hb
    exact .parts rfl rfl rfl
  · rename_i noSig noRcd noLst
    by_cases e : ca = cb
    · subst e
      rw [verdictOf, if_pos (by simp)]
      cases ca with
      | ref q => cases ha
      | rcd q => exact absurd rfl (noRcd q q rfl)
      | lst q => exact absurd rfl (noLst q q rfl)
      | sig f => exact absurd rfl (noSig f f rfl)
      | _ =>
        cases ha; cases hb
        exact .same rfl rfl rfl
    · -- cells of different kinds, or different constants of one kind
      rw [verdictOf, if_neg (by simpa using e)]
      apply Compared.clash
      rintro rfl
      cases ca <;> cases cb <;> simp only [cellView] at ha hb <;> (try split at ha) <;>
        (try split at hb) <;> cases ha <;> cases hb <;> simp_all

/-- A variable is bound to whatever stands on the right. -/
lemma compareCells_var_left {z : Addr} :
    h.compareCells a (.ref z) b cb = (.bind a b, none) := by
  unfold compareCells
  cases cb <;> rfl

/-- A term that is no variable is what one on the right is bound to. -/
lemma compareCells_var_right {z : Addr} (nr : ∀ q, ca ≠ .ref q) :
    h.compareCells a ca b (.ref z) = (.bind b a, none) := by
  cases ca with
  | ref q => exact absurd rfl (nr q)
  | _ => rfl

/-- A comparison is one of the cells where the references end. -/
lemma compare?_eq_some {v : Verdict} {note : Option Notice} (hc : h.compare? a b = some (v, note)) :
    ∃ x y cx cy, h.Ends a x ∧ h.read? x = some cx ∧ h.Ends b y ∧ h.read? y = some cy ∧
      v = if x = y then .same else (h.compareCells x cx y cy).1 := by
  unfold compare? at hc
  split at hc
  · rename_i x cx y cy hx hy
    obtain ⟨ex, hx⟩ := deref_eq_ok_iff.mp hx
    obtain ⟨ey, hy⟩ := deref_eq_ok_iff.mp hy
    refine ⟨x, y, cx, cy, ex, hx, ey, hy, ?_⟩
    have e := congrArg Prod.fst (Option.some.inj hc)
    by_cases xy : x = y
    · simpa [xy] using e.symm
    · simpa [xy] using e.symm
  · cases hc

/-- Addresses that lead to cells can be compared. -/
lemma exists_compare? {x y : Addr} (ex : h.Ends a x) (vx : h.isValid x = true) (ey : h.Ends b y)
    (vy : h.isValid y = true) : ∃ r, h.compare? a b = some r := by
  obtain ⟨cx, hx⟩ := Option.isSome_iff_exists.mp ((isSome_read? h x).trans vx)
  obtain ⟨cy, hy⟩ := Option.isSome_iff_exists.mp ((isSome_read? h y).trans vy)
  rw [compare?, deref_eq_ok_iff.mpr ⟨ex, hx⟩, deref_eq_ok_iff.mpr ⟨ey, hy⟩]
  exact ⟨_, rfl⟩

end Heap

namespace Unifier

variable {order : Order} {u u' : Unifier} {h h' : Heap} {a b : Addr}

/-- The new pairs are those of the parts, in some order. -/
lemma pairs_perm (order : Order) (x y n : Nat) :
    (pairs order x y n).Perm ((List.range' x n).zip (List.range' y n)) := by
  have asc : (List.range n).map (fun i => (x + i, y + i))
      = (List.range' x n).zip (List.range' y n) := by
    apply List.ext_getElem
    · simp
    · simp
  cases order with
  | firstToLast => rw [pairs, asc]
  | lastToFirst =>
    rw [pairs, asc]
    exact List.reverse_perm _

/-- Carrying out a verdict on a pair is a turn. -/
lemma apply_turn {v : Verdict} {note : Option Notice} (hc : h.compare? a b = some (v, note))
    (order : Order) (rest : List (Addr × Addr)) (n : Nat) :
    ∃ new h', Turn h a b new h' ∧
      apply order rest n h v = match new with
        | some new => (⟨new ++ rest, n, false⟩, h')
        | none => (⟨[], n, true⟩, h') := by
  obtain ⟨x, y, cx, cy, ex, hx, ey, hy, rfl⟩ := h.compare?_eq_some hc
  by_cases xy : x = y
  · subst xy
    rw [if_pos rfl]
    exact ⟨some [], h, .same ex ey, rfl⟩
  rw [if_neg xy]
  have vx := Heap.view_of_ends ex hx
  have vy := Heap.view_of_ends ey hy
  cases wx : h.cellView x cx with
  | var z =>
    -- the first term is an unbound variable
    obtain ⟨ez, ub⟩ := Heap.view_eq_var_iff.mp (vx.trans wx)
    obtain rfl := ez.unique ex
    have e : cx = .ref z := Option.some.inj (hx.symm.trans ub)
    subst e
    rw [Heap.compareCells_var_left]
    exact ⟨some [], _, .bind (.inl ⟨ex, ey⟩) (Ne.symm xy) ub (Heap.isValid_of_read? hy), rfl⟩
  | node l ps =>
    cases wy : h.cellView y cy with
    | var z =>
      -- only the second term is an unbound variable
      obtain ⟨ez, ub⟩ := Heap.view_eq_var_iff.mp (vy.trans wy)
      obtain rfl := ez.unique ey
      have e : cy = .ref z := Option.some.inj (hy.symm.trans ub)
      subst e
      have nr : ∀ q, cx ≠ .ref q := by
        rintro q rfl
        cases wx
      rw [Heap.compareCells_var_right nr]
      exact ⟨some [], _, .bind (.inr ⟨ey, ex⟩) xy ub (Heap.isValid_of_read? hx), rfl⟩
    | node k qs =>
      have cp := Heap.compareCells_compared xy wx wy
      rw [← vx] at wx
      rw [← vy] at wy
      generalize (h.compareCells x cx y cy).1 = v at cp
      cases cp with
      | clash ne => exact ⟨none, h, .clash wx wy ne, rfl⟩
      | same e hp hq =>
        subst e hp hq
        exact ⟨some [], h, .parts wx wy rfl (.refl _), rfl⟩
      | @parts x y n e hp hq =>
        subst e hp hq
        refine ⟨some (pairs order x y n), h, .parts wx wy ?_ (pairs_perm order x y n), rfl⟩
        simp

/-- A unifier that is not running stays as it is; a running one takes the turn of its first pair. -/
theorem step_turn (st : u.step order h = .ok (u', h')) :
    (u.status ≠ .running ∧ u' = u ∧ h' = h) ∨
    ∃ a b rest new, u.pending = (a, b) :: rest ∧ u.failed = false ∧ Turn h a b new h' ∧
      u' = match new with
        | some new => ⟨new ++ rest, u.steps + 1, false⟩
        | none => ⟨[], u.steps + 1, true⟩ := by
  unfold step at st
  split at st
  · rename_i hf
    cases st
    exact .inl ⟨by simp [status, hf], rfl, rfl⟩
  · rename_i hf
    split at st
    · rename_i hp
      cases st
      exact .inl ⟨by simp [status, hf, hp], rfl, rfl⟩
    · rename_i a b rest hp
      split at st
      · cases st
      · rename_i v note hc
        obtain ⟨new, h₁, tn, e⟩ := apply_turn hc order rest (u.steps + 1)
        rw [e] at st
        refine .inr ⟨a, b, rest, new, hp, by simpa using hf, ?_⟩
        cases new with
        | none =>
          cases st
          exact ⟨tn, rfl⟩
        | some new =>
          cases st
          exact ⟨tn, rfl⟩

/-- What every step keeps, a run keeps. -/
theorem run_invariant {P : Unifier → Heap → Prop} {fuel : Nat}
    (keep : ∀ {u h u' h'}, P u h → u.step order h = .ok (u', h') → P u' h') (inv : P u h)
    (rn : run order fuel u h = .ok (u', h')) : P u' h' := by
  induction fuel generalizing u h with
  | zero =>
    cases rn
    exact inv
  | succ fuel ih =>
    rw [run] at rn
    split at rn
    · split at rn
      · cases rn
      · rename_i u₁ h₁ st
        exact ih (keep inv st) rn
    · cases rn
      exact inv

/-- Where no step can fail, no run can. -/
theorem run_total {P : Unifier → Heap → Prop}
    (keep : ∀ {u h}, P u h → ∃ u' h', u.step order h = .ok (u', h') ∧ P u' h') (inv : P u h)
    (fuel : Nat) : ∃ u' h', run order fuel u h = .ok (u', h') ∧ P u' h' := by
  induction fuel generalizing u h with
  | zero => exact ⟨u, h, rfl, inv⟩
  | succ fuel ih =>
    rw [run]
    split
    · obtain ⟨u₁, h₁, st, inv₁⟩ := keep inv
      rw [st]
      exact ih inv₁
    · exact ⟨u, h, rfl, inv⟩

end Unifier

/-! ### What every turn keeps -/

namespace Turn

variable {h h' : Heap} {a b : Addr} {new : Option (List (Addr × Addr))}

/-- A turn binds a variable or nothing. -/
lemma binds (tn : Turn h a b new h') : h.Binds h' := by
  cases tn with
  | bind _ _ ub _ => exact .bind ub
  | _ => exact .refl h

/-- A turn makes no cycle of references. -/
lemma noRefCycle (tn : Turn h a b new h') (nc : h.NoRefCycle) : h'.NoRefCycle := by
  cases tn with
  | bind en ny ub _ =>
    obtain ⟨_, ey⟩ | ⟨_, ey⟩ := en
    · exact nc.bind ub ny ey.self
    · exact nc.bind ub ny ey.self
  | _ => exact nc

end Turn

namespace Unifier

variable {order : Order} {u u' : Unifier} {h h' : Heap}

/-- A step binds a variable or nothing, and makes no cycle of references. -/
lemma step_binds (st : u.step order h = .ok (u', h')) :
    h.Binds h' ∧ (h.NoRefCycle → h'.NoRefCycle) := by
  obtain ⟨_, _, rfl⟩ | ⟨a, b, rest, new, _, _, tn, _⟩ := step_turn st
  · exact ⟨.refl _, id⟩
  · exact ⟨tn.binds, tn.noRefCycle⟩

/-- A run binds variables and does nothing else, and makes no cycle of references. -/
theorem run_binds {fuel : Nat} (rn : run order fuel u h = .ok (u', h')) :
    h.Binds h' ∧ (h.NoRefCycle → h'.NoRefCycle) := by
  apply run_invariant (P := fun _ h' => h.Binds h' ∧ (h.NoRefCycle → h'.NoRefCycle)) _ ?_ rn
  · rintro u₁ h₁ u₂ h₂ ⟨bd, nc⟩ st
    obtain ⟨bd', nc'⟩ := step_binds st
    exact ⟨bd.trans bd', fun n => nc' (nc n)⟩
  · exact ⟨.refl _, id⟩

/-- A unification that makes a step starts at cells. -/
lemma isValid_of_run {fuel : Nat} {a b : Addr}
    (rn : run order (fuel + 1) (start a b) h = .ok (u, h')) :
    h.isValid a = true ∧ h.isValid b = true := by
  cases hc : h.compare? a b with
  | none => simp [run, start, status, step, hc] at rn
  | some r =>
    obtain ⟨x, y, cx, cy, ex, hx, ey, hy, _⟩ := Heap.compare?_eq_some hc
    exact ⟨ex.isValid hx, ey.isValid hy⟩

/-! ### Reports -/

variable {v : Int} {s s' : Store} {log log' : Log}

/-- A logged step is a step. It changes nothing but the heap. -/
lemma stepLogged_step (st : u.stepLogged order v s log = .ok (u', log', s')) :
    u.step order s.heap = .ok (u', s'.heap) ∧ s'.symbols = s.symbols ∧ s'.vars = s.vars := by
  obtain ⟨heap, symbols, vars⟩ := s
  rw [stepLogged] at st
  split at st
  · cases st
  · dsimp only at st
    split at st
    · cases st
    · rename_i hs
      cases st
      exact ⟨hs, rfl, rfl⟩

/-- A logged run is a run. It changes nothing but the heap. -/
theorem runLogged_run {fuel : Nat} (rn : runLogged order v fuel u s log = .ok (u', log', s')) :
    run order fuel u s.heap = .ok (u', s'.heap) ∧ s'.symbols = s.symbols ∧ s'.vars = s.vars := by
  induction fuel generalizing u s log with
  | zero =>
    cases rn
    exact ⟨rfl, rfl, rfl⟩
  | succ fuel ih =>
    rw [runLogged] at rn
    rw [run]
    split at rn
    · split at rn
      · cases rn
      · rename_i running _ u₁ log₁ s₁ st
        obtain ⟨st, es, ev⟩ := stepLogged_step st
        obtain ⟨rn, es', ev'⟩ := ih rn
        rw [if_pos running, st]
        exact ⟨rn, es'.trans es, ev'.trans ev⟩
    · rename_i ended
      cases rn
      rw [if_neg ended]
      exact ⟨rfl, rfl, rfl⟩

end Unifier
end TermHeap
