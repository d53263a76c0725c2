import TermHeap.Proofs.Heap.Reach
import TermHeap.Proofs.Unify.Step

/-!
# What unification writes

`writes order fuel u h` lists the bindings that a run writes, in their order. They are all that it
changes (`run_bindAll`), and no matter what the heap holds they are lawful: each points an unbound
variable to another address, so that no variable is bound twice and references still have an end
(`Bindable`). They stay within what could be reached from the two addresses in the heap at the
beginning, although each binding lets references lead elsewhere (`writes_mem`). Together this is
what a run leaves behind in whatever state it is stopped (`runLogged_writes`).
-/

namespace TermHeap
namespace Heap

variable {h h' : Heap} {V : Addr → Prop} {a b p q e x y : Addr} {ca cb : Cell}

/-! ### Bindings written in turn -/

/-- Point the variable at the first address of each pair to the second. -/
def bindAll (h : Heap) (ws : List (Addr × Addr)) : Heap :=
  ws.foldl (fun h w => h.write w.1 (.ref w.2)) h

/-- Each pair, in its turn, points an unbound variable to another address, which has a cell and is
where references end. -/
inductive Bindable : Heap → List (Addr × Addr) → Prop where
  | nil {h : Heap} : Bindable h []
  | cons {h : Heap} {x y : Addr} {ws : List (Addr × Addr)} : h.Unbound x → y ≠ x → h.Ends y y →
      h.isValid y = true → Bindable (h.write x (.ref y)) ws → Bindable h ((x, y) :: ws)

/-- Bindings are written in turn. -/
lemma bindAll_append (h : Heap) (ws ws' : List (Addr × Addr)) :
    h.bindAll (ws ++ ws') = (h.bindAll ws).bindAll ws' := by
  simp only [bindAll, List.foldl_append]

namespace Bindable

variable {ws ws' : List (Addr × Addr)}

/-- Lawful bindings bind variables and change nothing else. -/
lemma binds (bs : h.Bindable ws) : h.Binds (h.bindAll ws) := by
  induction bs with
  | nil => exact .refl _
  | cons ub _ _ _ _ ih => exact (Binds.bind ub).trans ih

/-- Lawful bindings may follow others. -/
lemma append (bs : h.Bindable ws) (bs' : (h.bindAll ws).Bindable ws') : h.Bindable (ws ++ ws') := by
  induction bs with
  | nil => exact bs'
  | cons ub ny ey vy _ ih => exact .cons ub ny ey vy (ih bs')

/-- Bindings make no cycle of references. -/
theorem noRefCycle (bs : h.Bindable ws) (nc : h.NoRefCycle) : (h.bindAll ws).NoRefCycle := by
  induction bs with
  | nil => exact nc
  | cons ub ny ey _ _ ih => exact ih (nc.bind ub ny ey)

/-- Variables that are bound at any time were unbound at first. -/
lemma unbound (bs : h.Bindable ws) (mem : x ∈ ws.map Prod.fst) : h.Unbound x := by
  induction bs with
  | nil => cases mem
  | cons ub _ _ _ _ ih =>
    rcases List.mem_cons.mp mem with rfl | mem
    · exact ub
    · exact (Binds.bind ub).unbound (ih mem)

/-- A variable that was bound is unbound no more. -/
lemma not_unbound_bind (ub : h.Unbound x) (ny : y ≠ x) : ¬ (h.write x (.ref y)).Unbound x := by
  intro ub'
  rw [Unbound, read?_bind ub, if_pos rfl] at ub'
  cases ub'
  exact ny rfl

/-- No variable is bound twice. -/
theorem nodup (bs : h.Bindable ws) : (ws.map Prod.fst).Nodup := by
  induction bs with
  | nil => exact .nil
  | cons ub ny _ _ bs ih =>
    refine List.nodup_cons.mpr ⟨?_, ih⟩
    intro mem
    exact not_unbound_bind ub ny (bs.unbound mem)

/-- Cells that are not bound stay as they are. -/
theorem kept (bs : h.Bindable ws) (nm : p ∉ ws.map Prod.fst) :
    (h.bindAll ws).read? p = h.read? p := by
  induction bs with
  | nil => rfl
  | cons ub _ _ _ _ ih =>
    simp only [List.map_cons, List.mem_cons, not_or] at nm
    exact (ih nm.2).trans (by rw [read?_bind ub, if_neg nm.1])

/-- A variable that was bound refers to another address in the end. -/
theorem bound (bs : h.Bindable ws) (mem : x ∈ ws.map Prod.fst) :
    ∃ y, y ≠ x ∧ (h.bindAll ws).read? x = some (.ref y) := by
  induction bs with
  | nil => cases mem
  | @cons h x' y ws ub ny _ _ bs ih =>
    by_cases later : x ∈ ws.map Prod.fst
    · exact ih later
    · obtain rfl : x = x' := by simpa [later] using mem
      exact ⟨y, ny, (bs.kept later).trans (by rw [read?_bind ub, if_pos rfl])⟩

/-- References that led to a cell still do. -/
theorem deref (bs : h.Bindable ws) {c : Cell} (hd : h.deref p = .ok (e, c)) :
    ∃ e' c', (h.bindAll ws).deref p = .ok (e', c') := by
  obtain ⟨en, hr⟩ := deref_eq_ok_iff.mp hd
  have ve := isValid_of_read? hr
  clear hd hr
  induction bs generalizing e with
  | nil =>
    obtain ⟨c, hr⟩ := Option.isSome_iff_exists.mp ((isSome_read? _ e).trans ve)
    exact ⟨e, c, deref_eq_ok_iff.mpr ⟨en, hr⟩⟩
  | @cons h x y ws ub ny ey vy _ ih =>
    apply ih (.bind ub ny ey en)
    rw [(Binds.bind ub).isValid]
    split
    · exact vy
    · exact ve

end Bindable

/-! ### When a binding is asked for -/

/-- Comparing two cells asks for a binding only if one of them is a variable. -/
lemma compareCells_bind (hc : (h.compareCells a ca b cb).1 = .bind x y) :
    (x = a ∧ y = b ∧ ∃ q, ca = .ref q) ∨ (x = b ∧ y = a ∧ ∃ q, cb = .ref q) := by
  unfold compareCells at hc
  split at hc
  · cases hc
    exact .inl ⟨rfl, rfl, _, rfl⟩
  · cases hc
    exact .inr ⟨rfl, rfl, _, rfl⟩
  · rw [verdictOf] at hc
    split at hc <;> cases hc
  · unfold compareRecords at hc
    split at hc
    · cases hc
    · split at hc
      · cases hc
      · dsimp only at hc
        split at hc <;> cases hc
  · cases hc
  · rw [verdictOf] at hc
    split at hc <;> cases hc

/-- What is to be bound is an unbound variable at the end of references from one of the addresses,
and it is bound to the cell at the end of those from the other. -/
lemma compare?_bind {note : Option Notice} (hc : h.compare? a b = some (.bind x y, note)) :
    (h.Ends a x ∧ h.Ends b y ∨ h.Ends b x ∧ h.Ends a y) ∧ h.Unbound x ∧ y ≠ x ∧
      h.isValid y = true := by
  obtain ⟨d, e, cd, ce, ed, hd, ee, he, hv⟩ := compare?_eq_some hc
  split at hv
  · cases hv
  · rename_i ne
    obtain ⟨rfl, rfl, q, rfl⟩ | ⟨rfl, rfl, q, rfl⟩ := compareCells_bind hv.symm
    · exact ⟨.inl ⟨ed, ee⟩, ed.unbound hd, Ne.symm ne, isValid_of_read? he⟩
    · exact ⟨.inr ⟨ee, ed⟩, ee.unbound he, ne, isValid_of_read? hd⟩

end Heap

/-- A turn keeps a set closed, and what takes the place of a pair of the set is in the set. -/
lemma Turn.closed {h h' : Heap} {V : Addr → Prop} {a b : Addr}
    {new : Option (List (Addr × Addr))} (tn : Turn h a b new h') (cl : h.Closed V) (va : V a)
    (vb : V b) : h'.Closed V ∧ ∀ pairs, new = some pairs → ∀ pq ∈ pairs, V pq.1 ∧ V pq.2 := by
  cases tn with
  | bind en _ ub _ =>
    refine ⟨?_, by simp⟩
    obtain ⟨_, ey⟩ | ⟨_, ey⟩ := en
    · exact cl.bind ub (ey.mem cl.ref vb)
    · exact cl.bind ub (ey.mem cl.ref va)
  | parts hv hw _ perm =>
    refine ⟨cl, ?_⟩
    rintro pairs e pq mem
    cases e
    have mem' := List.of_mem_zip (perm.mem_iff.mp mem)
    exact ⟨cl.part va ⟨_, _, hv, mem'.1⟩, cl.part vb ⟨_, _, hw, mem'.2⟩⟩
  | _ => exact ⟨cl, by simp⟩

namespace Unifier

/-- The binding that the next step of a unifier writes, if it writes one. -/
def write? (u : Unifier) (h : Heap) : Option (Addr × Addr) :=
  if u.failed then none
  else
    match u.pending with
    | [] => none
    | (a, b) :: _ =>
      match h.compare? a b with
      | some (.bind x y, _) => some (x, y)
      | _ => none

/-- The bindings that a run writes, in their order. -/
def writes (order : Order) : Nat → Unifier → Heap → List (Addr × Addr)
  | 0, _, _ => []
  | fuel + 1, u, h =>
    if u.status = .running then
      match u.step order h with
      | .error _ => []
      | .ok (u', h') => (u.write? h).toList ++ writes order fuel u' h'
    else []

variable {order : Order} {u u' : Unifier} {h h' : Heap} {V : Addr → Prop} {a b p : Addr}
  {fuel : Nat}

/-- A binding that is written points an unbound variable of the first pair to another address. -/
lemma write?_eq_some {w : Addr × Addr} (hw : u.write? h = some w) :
    ∃ a b rest, u.pending = (a, b) :: rest ∧
      (h.Ends a w.1 ∧ h.Ends b w.2 ∨ h.Ends b w.1 ∧ h.Ends a w.2) ∧ h.Unbound w.1 ∧ w.2 ≠ w.1 ∧
      h.isValid w.2 = true := by
  unfold write? at hw
  split at hw
  · cases hw
  · split at hw
    · cases hw
    · rename_i a b rest hp
      split at hw
      · rename_i x y note hc
        cases hw
        exact ⟨a, b, rest, hp, Heap.compare?_bind hc⟩
      · cases hw

/-- What a step writes is lawful. -/
lemma bindable_write? (u : Unifier) (h : Heap) : h.Bindable (u.write? h).toList := by
  cases hw : u.write? h with
  | none => exact .nil
  | some w =>
    obtain ⟨a, b, rest, _, en, ub, ny, vy⟩ := write?_eq_some hw
    obtain ⟨_, ey⟩ | ⟨_, ey⟩ := en
    · exact .cons ub ny ey.self vy .nil
    · exact .cons ub ny ey.self vy .nil

/-- A step changes the heap by its binding only. -/
lemma step_heap (st : u.step order h = .ok (u', h')) : h' = h.bindAll (u.write? h).toList := by
  rw [step] at st
  rw [write?]
  by_cases hf : u.failed = true
  · rw [if_pos hf] at st ⊢
    cases st
    rfl
  rw [if_neg hf] at st ⊢
  cases hp : u.pending with
  | nil =>
    rw [hp] at st
    cases st
    rfl
  | cons pq rest =>
    obtain ⟨a, b⟩ := pq
    rw [hp] at st
    dsimp only at st ⊢
    cases hc : h.compare? a b with
    | none =>
      rw [hc] at st
      cases st
    | some vn =>
      obtain ⟨v, note⟩ := vn
      rw [hc] at st
      cases v <;> cases st <;> rfl

/-- A run changes the heap by its bindings only, which are lawful. -/
theorem run_bindAll (rn : run order fuel u h = .ok (u', h')) :
    h' = h.bindAll (writes order fuel u h) ∧ h.Bindable (writes order fuel u h) := by
  induction fuel generalizing u h with
  | zero =>
    cases rn
    exact ⟨rfl, .nil⟩
  | succ fuel ih =>
    rw [run] at rn
    rw [writes]
    by_cases running : u.status = .running
    · rw [if_pos running] at rn ⊢
      cases st : u.step order h with
      | error e =>
        rw [st] at rn
        cases rn
      | ok next =>
        obtain ⟨u₁, h₁⟩ := next
        rw [st] at rn
        obtain ⟨eq, bs⟩ := ih rn
        obtain rfl := step_heap st
        refine ⟨?_, (bindable_write? u h).append bs⟩
        rw [eq, Heap.bindAll_append]
    · rw [if_neg running] at rn ⊢
      cases rn
      exact ⟨rfl, .nil⟩

/-- The set `V` is closed, and the pairs of the unifier are in it. -/
structure Inside (V : Addr → Prop) (u : Unifier) (h : Heap) : Prop where
  closed : h.Closed V
  pending : ∀ pq ∈ u.pending, V pq.1 ∧ V pq.2

/-- A step stays in a closed set. -/
lemma Inside.step (ins : Inside V u h) (st : u.step order h = .ok (u', h')) : Inside V u' h' := by
  obtain ⟨_, rfl, rfl⟩ | ⟨a, b, rest, new, hp, _, tn, e⟩ := step_turn st
  · exact ins
  · obtain ⟨va, vb⟩ := ins.pending (a, b) (by simp [hp])
    obtain ⟨cl, prs⟩ := tn.closed ins.closed va vb
    refine ⟨cl, ?_⟩
    cases new with
    | none =>
      rw [e]
      simp
    | some new =>
      rw [e]
      intro pq mem
      rcases List.mem_append.mp mem with mem | mem
      · exact prs new rfl pq mem
      · exact ins.pending pq (by simp [hp, mem])

/-- A step writes to an address of the set. -/
lemma Inside.write? (ins : Inside V u h) {w : Addr × Addr} (hw : u.write? h = some w) : V w.1 := by
  obtain ⟨a, b, rest, hp, en, _⟩ := write?_eq_some hw
  obtain ⟨va, vb⟩ := ins.pending (a, b) (by simp [hp])
  obtain ⟨ex, _⟩ | ⟨ex, _⟩ := en
  · exact ex.mem ins.closed.ref va
  · exact ex.mem ins.closed.ref vb

/-- A run that starts in a closed set writes to addresses of that set only. -/
theorem writes_mem (ins : Inside V u h) : ∀ w ∈ writes order fuel u h, V w.1 := by
  -- the set stays closed from step to step, though references come to lead elsewhere
  induction fuel generalizing u h with
  | zero => exact nofun
  | succ fuel ih =>
    intro w mem
    rw [writes] at mem
    split at mem
    · split at mem
      · cases mem
      · rename_i u₁ h₁ st
        rcases List.mem_append.mp mem with mem | mem
        · exact ins.write? (Option.mem_toList.mp mem)
        · exact ih (ins.step st) w mem
    · cases mem

/-- Unification writes nothing but bindings. In whatever state it is stopped, the bindings that it
wrote are all that it changed; a cell that differs was an unbound variable in one of the terms, now
refers to another address and was written once; and references that led to a cell still do. -/
theorem runLogged_writes {v : Int} {s s' : Store} {log log' : Log} (nc : s.heap.NoRefCycle)
    (rn : runLogged order v fuel (start a b) s log = .ok (u, log', s')) :
    let written := writes order fuel (start a b) s.heap
    s'.heap.size = s.heap.size ∧ s'.symbols = s.symbols ∧ s'.vars = s.vars ∧
    s'.heap = s.heap.bindAll written ∧
    (∀ p, s'.heap.read? p = s.heap.read? p ∧ p ∉ written.map Prod.fst ∨
      s.heap.Unbound p ∧ (s.heap.Occurs a p ∨ s.heap.Occurs b p) ∧
      (∃ q, q ≠ p ∧ s'.heap.read? p = some (.ref q)) ∧ (written.map Prod.fst).count p = 1) ∧
    s'.heap.NoRefCycle ∧
    ∀ p e c, s.heap.deref p = .ok (e, c) → ∃ e' c', s'.heap.deref p = .ok (e', c') := by
  intro written
  obtain ⟨rn, es, ev⟩ := runLogged_run rn
  obtain ⟨eq, bs⟩ := run_bindAll rn
  have ins : Inside (fun p => s.heap.Below a p ∨ s.heap.Below b p) (start a b) s.heap := by
    refine ⟨(s.heap.closed_below a).or (s.heap.closed_below b), ?_⟩
    intro pq mem
    obtain rfl : pq = (a, b) := by simpa [start] using mem
    exact ⟨.inl (.self _ a), .inr (.self _ b)⟩
  have cells : ∀ p, s'.heap.read? p = s.heap.read? p ∧ p ∉ written.map Prod.fst ∨
      s.heap.Unbound p ∧ (s.heap.Occurs a p ∨ s.heap.Occurs b p) ∧
      (∃ q, q ≠ p ∧ s'.heap.read? p = some (.ref q)) ∧
      (written.map Prod.fst).count p = 1 := by
    intro p
    rw [eq]
    by_cases mem : p ∈ written.map Prod.fst
    · right
      have ub := bs.unbound mem
      obtain ⟨w, mw, rfl⟩ := List.mem_map.mp mem
      refine ⟨ub, ?_, bs.bound mem, List.count_eq_one_of_mem bs.nodup mem⟩
      rcases writes_mem ins w mw with bl | bl
      · exact .inl (bl.occurs ub)
      · exact .inr (bl.occurs ub)
    · exact .inl ⟨bs.kept mem, mem⟩
  refine ⟨?_, es, ev, eq, cells, ?_, ?_⟩
  · rw [eq]
    exact bs.binds.size_eq
  · rw [eq]
    exact bs.noRefCycle nc
  · intro p e c hd
    rw [eq]
    exact bs.deref hd

/-- The pairs `[X | 1]` and `[r | 2]`, where `r` points at no signature, beside a variable. -/
def leftoverBinding : Store :=
  { Store.empty 16 with
    heap := ⟨⟨#[.lst 3, .lst 5, .ref 3, .int 1, .rcd 0, .int 2, .ref 7], [], 16⟩⟩ }

/-- The two pairs are not unifiable, yet `X` stays bound to the damaged record in its place. -/
theorem runLogged_writes_leftoverBinding :
    ∃ u log s, runLogged .firstToLast 0 5 (start 1 2) leftoverBinding .empty = .ok (u, log, s) ∧
      u.status = .failure ∧ s.heap.read? 3 = some (.ref 5) ∧
      s.heap = leftoverBinding.heap.bindAll [(3, 5)] ∧
      (∀ p, s.heap.read? p = leftoverBinding.heap.read? p ∧ p ∉ [3] ∨
        leftoverBinding.heap.Unbound p ∧
        (leftoverBinding.heap.Occurs 1 p ∨ leftoverBinding.heap.Occurs 2 p) ∧
        (∃ q, q ≠ p ∧ s.heap.read? p = some (.ref q)) ∧ [3].count p = 1) ∧
      s.heap.NoRefCycle := by
  have nc : leftoverBinding.heap.NoRefCycle := Heap.noRefCycle_of_deref (by decide)
  have rn : runLogged .firstToLast 0 5 (start 1 2) leftoverBinding .empty = .ok (_, _, _) := rfl
  obtain ⟨_, _, _, eq, cells, nc', _⟩ := runLogged_writes nc rn
  exact ⟨_, _, _, rn, rfl, rfl, eq, cells, nc'⟩

end Unifier
end TermHeap
