import Mathlib
import TermHeap.Proofs.Store.Reading
import TermHeap.Proofs.Unify.Reporting

/-!
# Reading what was laid

Growth of a consistent store changes nothing of what its addresses read as (`Consistent.readAt_eq`).
A term that is laid onto it reads as the term itself in which names that were in use stand for what
their variables read as (`Lays.readTerm_eq`). The main statement is `readTerm_addTerm`, about all
stores that terms and unifications can lead to (`Built`).
-/

namespace TermHeap

/-! ### Terms with names replaced -/

namespace Term

variable {ε : Type}

mutual

/-- The term with each named variable replaced by what its name stands for, or the first error in
the order of the variables. -/
def instantiate (σ : String → Except ε Term) : Term → Except ε Term
  | .var n => if n.isEmpty then .ok .anonymous else σ n
  | .record n args => (instantiateAll σ args).map (.record n)
  | .cons car cdr => (car.instantiate σ).bind fun car => (cdr.instantiate σ).map (.cons car)
  | .int value => .ok (.int value)
  | .sym n => .ok (.sym n)
  | .nil => .ok .nil

/-- Several terms with their named variables replaced. -/
def instantiateAll (σ : String → Except ε Term) : List Term → Except ε (List Term)
  | [] => .ok []
  | t :: ts => (t.instantiate σ).bind fun t => (instantiateAll σ ts).map (t :: ·)

end

mutual

/-- Whether the names of all variables of a term satisfy a condition. -/
def allVars (ok : String → Bool) : Term → Bool
  | .var n => ok n
  | .record _ args => allVarsOf ok args
  | .cons car cdr => car.allVars ok && cdr.allVars ok
  | .int _ | .sym _ | .nil => true

/-- Whether the names of all variables of several terms satisfy a condition. -/
def allVarsOf (ok : String → Bool) : List Term → Bool
  | [] => true
  | t :: ts => t.allVars ok && allVarsOf ok ts

end

mutual

/-- Names that stand for themselves leave a term as it is. -/
lemma instantiate_self {σ : String → Except ε Term} {ok : String → Bool}
    (self : ∀ n, ok n = true → n ≠ "" → σ n = .ok (.var n)) :
    (t : Term) → t.allVars ok = true → t.instantiate σ = .ok t
  | .var n, hv => by
    rw [instantiate]
    split
    · rename_i e
      obtain rfl : n = "" := by simpa using e
      rfl
    · rename_i ne
      exact self n hv (by simpa using ne)
  | .record n args, hv => by
    rw [instantiate, instantiateAll_self self args hv]
    rfl
  | .cons car cdr, hv => by
    rw [allVars, Bool.and_eq_true] at hv
    rw [instantiate, instantiate_self self car hv.1, instantiate_self self cdr hv.2]
    rfl
  | .int _, _ => rfl
  | .sym _, _ => rfl
  | .nil, _ => rfl

/-- Names that stand for themselves leave several terms as they are. -/
lemma instantiateAll_self {σ : String → Except ε Term} {ok : String → Bool}
    (self : ∀ n, ok n = true → n ≠ "" → σ n = .ok (.var n)) :
    (ts : List Term) → allVarsOf ok ts = true → instantiateAll σ ts = .ok ts
  | [], _ => rfl
  | t :: ts, hv => by
    rw [allVarsOf, Bool.and_eq_true] at hv
    rw [instantiateAll, instantiate_self self t hv.1, instantiateAll_self self ts hv.2]
    rfl

end

end Term

namespace Store

variable {s s' : Store} {V : Addr → Prop} {p q e : Addr} {c : Cell} {t : Term} {d : Nat}

/-! ### What growth leaves as it is -/

namespace Consistent

/-- What is found from an address stays the same. -/
lemma deref_eq (cs : s.Consistent V) (gr : s.Grows s') (val : s.heap.isValid p = true) :
    s'.heap.deref p = s.heap.deref p :=
  (cs.within gr).deref_eq cs.points (fun _ => cs.valid) cs.noRefCycle val

/-- What an address stands for stays the same. -/
lemma view_eq (cs : s.Consistent V) (gr : s.Grows s') (val : s.heap.isValid p = true) :
    s'.heap.view p = s.heap.view p := by
  rw [Heap.view, Heap.view, cs.deref_eq gr val]
  cases hd : s.heap.deref p with
  | error bad => rfl
  | ok found =>
    obtain ⟨e, c⟩ := found
    have hr := (Heap.deref_eq_ok_iff.mp hd).2
    cases c with
    | rcd q =>
      obtain ⟨f, hf, _⟩ := cs.points.rcd hr
      simp only [Heap.cellView, Heap.signature?_eq_some.mpr hf,
        Heap.signature?_eq_some.mpr (cs.keep gr hf)]
    | _ => rfl

/-- Where there was no cycle there is none later. -/
lemma acyclic (cs : s.Consistent V) (gr : s.Grows s') (val : s.heap.isValid p = true)
    (ac : s.heap.Acyclic p) : s'.heap.Acyclic p := by
  apply AcyclicFrom.congr (I := fun p => s.heap.isValid p = true) ac val
  rintro q r vq ⟨l, ps, hv, mem⟩
  rw [cs.view_eq gr vq] at hv
  exact ⟨⟨l, ps, hv, mem⟩, cs.valid (cs.points.part hv r mem)⟩

/-- A variable is read as before. -/
lemma readVar_eq (cs : s.Consistent V) (gr : s.Grows s') (val : s.heap.isValid p = true) :
    s'.readVar p = s.readVar p := by
  have name := gr.name val
  cases hn : s.vars.name? p with
  | none => rw [readVar_of_no_name hn, readVar_of_no_name (name.trans hn)]
  | some k =>
    obtain ⟨n, hk⟩ := cs.named.known hn
    have hk := Symbols.name?_of_find? hk
    rw [Store.readVar_eq, Store.readVar_eq, varName_of_name? hn hk,
      varName_of_name? (name.trans hn) (gr.symbols.name hk)]

/-- An address reads as before if the parts of its term do. -/
lemma readLevel_eq {part part' : Option (Addr → Except ReadError Term)} (cs : s.Consistent V)
    (gr : s.Grows s') (val : s.heap.isValid p = true)
    (agree : Option.Rel (fun f g => ∀ q, s.heap.isValid q = true → f q = g q) part' part) :
    s'.readLevel part' p = s.readLevel part p := by
  rw [readLevel, readLevel, cs.deref_eq gr val]
  cases hd : s.heap.deref p with
  | error bad => rfl
  | ok found =>
    obtain ⟨e, c⟩ := found
    have hr := (Heap.deref_eq_ok_iff.mp hd).2
    cases c with
    | ref q => exact congrArg Except.ok (cs.readVar_eq gr (Heap.isValid_of_read? hr))
    | sym k =>
      obtain ⟨n, hk⟩ := cs.sym hr
      simp only [readCell, hk, gr.symbols.name hk]
    | rcd q =>
      obtain ⟨f, hf, args⟩ := cs.points.rcd hr
      obtain ⟨n, hk⟩ := cs.sig hf
      simp only [readCell, hf, cs.keep gr hf, hk, gr.symbols.name hk]
      cases agree with
      | none => rfl
      | some agree =>
        dsimp only
        rw [mapM_congr]
        intro r mem
        obtain ⟨i, hi, rfl⟩ := List.mem_range'.mp mem
        rw [Nat.one_mul]
        exact agree _ (cs.valid (args i hi))
    | lst q =>
      obtain ⟨h₁, h₂⟩ := cs.points.lst hr
      cases agree with
      | none => rfl
      | some agree =>
        simp only [readCell, agree q (cs.valid h₁), agree (q + 1) (cs.valid h₂)]
    | _ => rfl

/-- Whatever an address reads as at some depth, it does so after growth. -/
theorem readAt_eq (cs : s.Consistent V) (gr : s.Grows s') (val : s.heap.isValid p = true) :
    s'.readAt d p = s.readAt d p := by
  -- on the depth, since a cyclic term has no other measure
  induction d generalizing p with
  | zero => exact cs.readLevel_eq gr val .none
  | succ d ih => exact cs.readLevel_eq gr val (.some fun q vq => ih vq)

/-- Growth changes nothing of what an address without cycles below it reads as. -/
theorem readTerm_eq (cs : s.Consistent V) (gr : s.Grows s') (val : s.heap.isValid p = true)
    (ac : s.heap.Acyclic p) : s'.readTerm p = s.readTerm p := by
  rw [readTerm_eq_readAt, readTerm_eq_readAt, cs.readAt_eq gr val,
    readAt_of_depthLe ac.depthLe gr.size_le]

end Consistent

/-! ### Reading a layout -/

/-- What a name stands for: what its variable reads as, or a variable with this name. -/
def meaning (s : Store) (n : String) : Except ReadError Term :=
  match s.findVar? n with
  | some q => s.readTerm q
  | none => .ok (readName n)

/-- A term without parts is read from its cell alone. -/
lemma readTerm_of_leaf (en : s.heap.Ends p e) (hr : s.heap.read? e = some c)
    (leaf : ∀ l ps, s.heap.cellView e c = .node l ps → ps = []) :
    s.heap.Acyclic p ∧ s.readTerm p = s.readCell (some s.readTerm) e c := by
  have ac : s.heap.Acyclic p := by
    apply AcyclicFrom.of_step
    rintro q ⟨l, ps, hv, mem⟩
    rw [Heap.view_of_ends en hr] at hv
    rw [leaf l ps hv] at mem
    cases mem
  exact ⟨ac, (Store.readTerm_eq ac).trans (readLevel_of_ends en hr _)⟩

/-- References that end where others do stand for the same term. -/
lemma readTerm_of_common_end (en : s.heap.Ends p e) (en' : s.heap.Ends q e)
    (ac : s.heap.Acyclic q) : s.heap.Acyclic p ∧ s.readTerm p = s.readTerm q := by
  refine ⟨AcyclicFrom.of_step ?_, (readTerm_of_ends en).trans (readTerm_of_ends en').symm⟩
  rintro r ⟨l, ps, hv, mem⟩
  rw [Heap.view_eq_of_ends en, ← Heap.view_eq_of_ends en'] at hv
  exact ac.step ⟨l, ps, hv, mem⟩

/-- A reference reads as what is at the end of it. -/
lemma readTerm_of_ref {e : Addr} (hr : s.heap.read? p = some (.ref q)) (en : s.heap.Ends q e)
    (ac : s.heap.Acyclic q) : s.heap.Acyclic p ∧ s.readTerm p = s.readTerm q := by
  by_cases self : q = p
  · subst self
    exact ⟨ac, rfl⟩
  · exact readTerm_of_common_end (.next ⟨hr, self⟩ en) en ac

/-- A leaf reads as its term. A name that was in use before is read as its variable was. -/
lemma LeafAt.readTerm_eq (cs : s.Consistent V) (gr : s.Grows s') (ac : ∀ p, s.heap.Acyclic p)
    (lf : s'.LeafAt p t) :
    s'.heap.Acyclic p ∧ s'.readTerm p = t.instantiate s.meaning := by
  cases lf with
  | int hr =>
    exact readTerm_of_leaf (.of_cell hr nofun) hr fun l ps hv => by cases hv; rfl
  | nil hr =>
    exact readTerm_of_leaf (.of_cell hr nofun) hr fun l ps hv => by cases hv; rfl
  | sym hr hk =>
    obtain ⟨ac', rd⟩ :=
      readTerm_of_leaf (.of_cell hr nofun) hr fun l ps hv => by cases hv; rfl
    refine ⟨ac', rd.trans ?_⟩
    simp only [readCell, hk, Term.instantiate]
  | fresh ub hn =>
    obtain ⟨ac', rd⟩ := readTerm_of_leaf ub.ends ub fun l ps hv => by cases hv
    exact ⟨ac', rd.trans (congrArg Except.ok (readVar_of_no_name hn))⟩
  | @var n q ne hr hf =>
    have name : (Term.var n).instantiate s.meaning = s.meaning n := by
      rw [Term.instantiate, if_neg (by simpa using ne)]
    rw [name, meaning]
    rcases gr.findVar?_cases cs.named hf with old | ⟨none, _, ub⟩
    · -- the variable may have been bound since it was named, so its references are followed
      obtain ⟨r, hq⟩ := cs.named.findVar?_cell old
      have val := Heap.isValid_of_read? hq
      obtain ⟨e, en⟩ := cs.noRefCycle.exists_ends q
      obtain ⟨ac', rd⟩ := readTerm_of_ref hr (cs.ends gr en val) (cs.acyclic gr val (ac q))
      rw [old]
      exact ⟨ac', rd.trans (cs.readTerm_eq gr val (ac q))⟩
    · obtain ⟨acq, rdq⟩ := readTerm_of_leaf ub.ends ub fun l ps hv => by cases hv
      obtain ⟨ac', rd⟩ := readTerm_of_ref hr ub.ends acq
      rw [none]
      exact ⟨ac', (rd.trans rdq).trans (congrArg Except.ok (gr.named.readVar_eq hf))⟩

/-- Arguments that read as terms with names replaced do so in a row. -/
lemma mapM_readTerm {σ : String → Except ReadError Term} {args : List Term} {a : Addr}
    (rd : ∀ i (hi : i < args.length), s.readTerm (a + i) = args[i].instantiate σ) :
    (List.range' a args.length).mapM s.readTerm = Term.instantiateAll σ args := by
  induction args generalizing a with
  | nil => rfl
  | cons t ts ih =>
    have head := rd 0 (Nat.succ_pos _)
    have tail := ih (a := a + 1) (by
      intro i hi
      rw [Nat.add_assoc, Nat.add_comm 1 i]
      exact rd (i + 1) (Nat.succ_lt_succ hi))
    rw [List.length_cons, List.range'_succ, List.mapM_cons, tail, Term.instantiateAll]
    rw [show s.readTerm a = t.instantiate σ from head]
    cases t.instantiate σ with
    | error e => rfl
    | ok t =>
      cases Term.instantiateAll σ ts with
      | error e => rfl
      | ok ts => rfl

/-- A term that is laid out reads as itself, with the names that were in use replaced. -/
theorem Lays.readTerm_eq (cs : s.Consistent V) (gr : s.Grows s') (ac : ∀ p, s.heap.Acyclic p)
    (la : s'.Lays p t) :
    s'.heap.Acyclic p ∧ s'.readTerm p = t.instantiate s.meaning := by
  induction la with
  | leaf lf => exact lf.readTerm_eq cs gr ac
  | @record p q f n args hr hf hn ha _ ih =>
    have en : s'.heap.Ends p p := .of_cell hr (by simp)
    have hv := Heap.view_of_ends en hr
    rw [Heap.cellView, Heap.signature?_eq_some.mpr hf] at hv
    have ac' : s'.heap.Acyclic p := by
      apply AcyclicFrom.of_step
      rintro r ⟨l, ps, hv', mem⟩
      cases hv.symm.trans hv'
      obtain ⟨i, hi, rfl⟩ := List.mem_range'.mp mem
      rw [Nat.one_mul]
      exact (ih i (ha ▸ hi)).1
    refine ⟨ac', ?_⟩
    rw [Store.readTerm_eq ac', readLevel_of_ends en hr]
    simp only [readCell, hf, hn, ha]
    rw [mapM_readTerm fun i hi => (ih i hi).2, Term.instantiate]
  | @cons p q car cdr hr _ _ ih₁ ih₂ =>
    have en : s'.heap.Ends p p := .of_cell hr (by simp)
    have hv := Heap.view_of_ends en hr
    have ac' : s'.heap.Acyclic p := by
      apply AcyclicFrom.of_step
      rintro r ⟨l, ps, hv', mem⟩
      cases hv.symm.trans hv'
      rcases List.mem_cons.mp mem with rfl | mem
      · exact ih₁.1
      · obtain rfl := List.mem_singleton.mp mem
        exact ih₂.1
    refine ⟨ac', ?_⟩
    rw [Store.readTerm_eq ac', readLevel_of_ends en hr, readCell, ih₁.2, ih₂.2, Term.instantiate]

/-! ### Stores with a history -/

/-- The stores that an empty one can become by terms that are laid and by unifications, at whatever
verbosity. A unification may start anywhere, fail, or be left after a number of steps. -/
inductive Built : Store → Prop where
  | fresh (capacity : Nat) : Built (.empty capacity)
  | addTerm {s s' : Store} {v : Int} {t : Term} {log log' : Log} {root : Addr} : Built s →
      s.addTermLogged v t log = .ok (root, log', s') → Built s'
  | unify {s s' : Store} {order : Order} {v : Int} {fuel : Nat} {a b : Addr} {u : Unifier}
      {log log' : Log} : Built s →
      (Unifier.start a b).runLogged order v fuel s log = .ok (u, log', s') → Built s'

/-- A term that is laid and reported is laid. -/
lemma addTerm_of_logged {v : Int} {log log' : Log} {root : Addr}
    (ha : s.addTermLogged v t log = .ok (root, log', s')) : s.addTerm t = .ok (root, s') := by
  cases hs : s.addTerm t with
  | error e =>
    rw [addTermLogged, hs] at ha
    cases ha
  | ok added =>
    obtain ⟨root', s''⟩ := added
    simp only [addTermLogged, hs, Bind.bind, Except.bind] at ha
    split at ha
    · split at ha
      · cases ha
      · cases ha
        rfl
    · cases ha
      rfl

/-- Every store with a history is consistent. Unifications may have bound variables to signatures,
so its cells point at cells, which need not be values. -/
theorem Built.consistent (bt : Built s) : s.Consistent (s.heap.isValid · = true) := by
  induction bt with
  | fresh capacity =>
    apply Consistent.of_empty
    intro p val
    obtain ⟨c, hr⟩ := Option.isSome_iff_exists.mp ((Heap.isSome_read? _ _).trans val)
    exact absurd ((Heap.read?_empty capacity p).symm.trans hr) nofun
  | addTerm _ ha cs =>
    have ha := addTerm_of_logged ha
    obtain ⟨_, gr, _⟩ := addTerm_lays cs.named ha
    exact cs.addTerm ha gr.isValid Heap.IsValue.isValid id
  | @unify s s' order v fuel a b u log log' _ rn cs =>
    cases fuel with
    | zero =>
      -- nothing is known of `a` and `b` here, but nothing happened either
      cases rn
      exact cs
    | succ fuel =>
      obtain ⟨va, vb⟩ := Unifier.isValid_of_run (Unifier.runLogged_run rn).1
      have sf := Safe.start cs.points cs.noRefCycle (fun _ => id) va vb
      rcases Unifier.runLogged_safe order v (fuel + 1) log cs sf with
        ⟨u', log'', s'', rn', cs', _, bd⟩ | ⟨stop, _⟩
      · cases rn.symm.trans rn'
        exact cs'.mono (fun vp => (bd.isValid _).trans vp) id
      · exact absurd (rn.symm.trans stop) nofun

/-- A term that is laid onto a store without cyclic terms reads as itself, with the names that were
in use replaced by what their variables read as. What could be read before reads as before. -/
theorem readTerm_addTerm (bt : Built s) (ac : ∀ p, s.heap.Acyclic p) (ft : t.fits = true) (v : Int)
    (log : Log) :
    ∃ root log' s', s.addTermLogged v t log = .ok (root, log', s') ∧
      s'.readTerm root = t.instantiate s.meaning ∧
      (∀ capacity, s = .empty capacity → t.allVars (·.toList.head? ≠ some '_') = true →
        s'.readTerm root = .ok t) ∧
      ∀ r, s.heap.isValid r = true → s'.readTerm r = s.readTerm r := by
  have cs := bt.consistent
  obtain ⟨root, s', ha⟩ := exists_addTerm s ft
  obtain ⟨rfl, gr, la, _⟩ := addTerm_lays cs.named ha
  have cs' : s'.Consistent (s'.heap.isValid · = true) :=
    cs.addTerm ha gr.isValid Heap.IsValue.isValid id
  have pos : 0 < s.heap.top := Nat.succ_pos _
  obtain ⟨log', hl⟩ := exists_addTermLogged cs' pos ha v log
  have rd := (la.readTerm_eq cs gr ac).2
  refine ⟨_, log', s', hl, rd, ?_, ?_⟩
  · rintro capacity rfl hv
    rw [rd]
    apply Term.instantiate_self _ t hv
    intro n hn ne
    rw [meaning, findVar?_empty]
    exact congrArg Except.ok (readName_eq_var ne (of_decide_eq_true hn))
  · intro r val
    exact cs.readTerm_eq gr val (ac r)

/-- The records `f(X, [])` and `f(7, Z)` are laid and unified, so that `X` stands for `7`. -/
def unifiedRecords : Except Fault Store := do
  let (_, log, s) ← (Store.empty 8).addTermLogged 1 (.record "f" [.var "X", .nil]) .empty
  let (_, log, s) ← s.addTermLogged 1 (.record "f" [.int 7, .var "Z"]) log
  let (_, _, s) ← (Unifier.start 1 5).runLogged .lastToFirst 1 9 s log
  return s

/-- What succeeds in two parts succeeds in the first. -/
lemma exists_of_bind_eq_ok {α β : Type} {x : Except Fault α} {f : α → Except Fault β} {b : β}
    (hb : (x >>= f) = .ok b) : ∃ a, x = .ok a ∧ f a = .ok b := by
  cases x with
  | error e => cases hb
  | ok a => exact ⟨a, rfl, hb⟩

/-- The store of `unifiedRecords` has a history. -/
lemma built_unifiedRecords (hs : unifiedRecords = .ok s) : Built s := by
  obtain ⟨⟨_, log₁, s₁⟩, h₁, hs⟩ := exists_of_bind_eq_ok hs
  obtain ⟨⟨_, log₂, s₂⟩, h₂, hs⟩ := exists_of_bind_eq_ok hs
  obtain ⟨⟨_, log₃, s₃⟩, h₃, hs⟩ := exists_of_bind_eq_ok hs
  cases hs
  exact (((Built.fresh 8).addTerm h₁).addTerm h₂).unify h₃

/-- The term `g(X, Y, _Z, _)`. -/
def fourVariables : Term := .record "g" [.var "X", .var "Y", .var "_Z", .anonymous]

/-- The term `g(X, Y, _Z, _)` is read as `g(7, Y, _, _)` where `X` stands for `7`. -/
theorem readTerm_addTerm_unifiedRecords :
    ∃ s root log s', unifiedRecords = .ok s ∧ s.findVar? "X" = some 3 ∧
      s.addTermLogged 1 fourVariables .empty = .ok (root, log, s') ∧
      s'.readTerm root = .ok (.record "g" [.int 7, .var "Y", .anonymous, .anonymous]) := by
  have values : (unifiedRecords.map fun s =>
      (s.findVar? "X", s.heap.allFinite, fourVariables.instantiate s.meaning))
      = .ok (some 3, true, .ok (.record "g" [.int 7, .var "Y", .anonymous, .anonymous])) := by
    cbv
  cases hs : unifiedRecords with
  | error e =>
    rw [hs] at values
    cases values
  | ok s =>
    rw [hs] at values
    obtain ⟨found, rest⟩ := Prod.mk.inj (Except.ok.inj values)
    obtain ⟨finite, inst⟩ := Prod.mk.inj rest
    have fits : fourVariables.fits = true := by decide
    obtain ⟨root, log, s', ha, rd, _⟩ := readTerm_addTerm (built_unifiedRecords hs)
      (Heap.acyclic_of_allFinite finite) fits 1 .empty
    exact ⟨s, root, log, s', rfl, found, ha, rd.trans inst⟩

end Store
end TermHeap
