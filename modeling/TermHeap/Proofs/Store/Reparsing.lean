import Mathlib
import TermHeap.Proofs.Store.RoundTrip
import TermHeap.Proofs.Store.Showing
import TermHeap.Proofs.Term.Written

/-!
# Displayed terms are read back

All names and lists of a store are written forms of something if only terms that were read from
texts are laid onto it (`Writable`). Growth by such terms keeps this (`Writable.addTerm`), and so do
bindings (`Writable.binds`). Then every finite tree of the heap is shown as the text of a canonical
term, and what it is read back as is that term (`parse_render_tree`).
-/

namespace TermHeap

/-! ### Trees as terms -/

mutual

/-- The term that a tree stands for, in which variables go by the names under which they are
shown. -/
def Tree.term? (s : Store) : Tree → Option Term
  | .var x => some (.var (s.varName x))
  | .node (.int v) [] => some (.int v)
  | .node (.sym k) [] => (s.symbols.name? k).map .sym
  | .node .nil [] => some .nil
  | .node (.record f) ts =>
    (s.symbols.name? f.name).bind fun n => (terms? s ts).map (.record n)
  | .node .pair [car, cdr] => (car.term? s).bind fun car => (cdr.term? s).map (.cons car)
  | .node _ _ => none

/-- The terms that several trees stand for. -/
def Tree.terms? (s : Store) : List Tree → Option (List Term)
  | [] => some []
  | t :: ts => (t.term? s).bind fun t => (terms? s ts).map (t :: ·)

end

namespace Tree

variable {s : Store}

/-- A symbol stands for the atom of its name. -/
lemma term?_sym (k : Symbol) :
    (node (.sym k) []).term? s = (s.symbols.name? k).map .sym := rfl

/-- A record stands for one with the name of its signature. -/
lemma term?_record (f : Signature) (ts : List Tree) : (node (.record f) ts).term? s =
    (s.symbols.name? f.name).bind fun n => (terms? s ts).map (.record n) := rfl

/-- A list pair stands for one of what its parts stand for. -/
lemma term?_pair (t u : Tree) : (node .pair [t, u]).term? s =
    (t.term? s).bind fun car => (u.term? s).map (.cons car) := rfl

end Tree

namespace Store

open Term (Canonical CanonicalAll EndsInNil Hereditary)
open Grammar (Identifier)

variable {s s' : Store} {V : Addr → Prop} {p q x : Addr} {k : Symbol} {n m : String} {t : Term}
  {c : Cell} {f : Signature}

/-! ### Names of a text -/

/-- Several terms are canonical if each of them is. -/
lemma canonicalAll_iff {ts : List Term} : CanonicalAll ts ↔ ∀ t ∈ ts, t.Canonical := by
  induction ts with
  | nil => simp [CanonicalAll]
  | cons t ts ih => simp [CanonicalAll, ih]

/-- The parts of canonical terms are canonical. -/
lemma hereditary_canonical : Hereditary Canonical := by
  intro t can u mem
  cases t with
  | record n args =>
    rw [Canonical] at can
    exact canonicalAll_iff.mp can.2.2.2 u mem
  | cons car cdr =>
    rw [Canonical] at can
    rcases List.mem_cons.mp mem with rfl | mem
    · exact can.1
    · obtain rfl := List.mem_singleton.mp mem
      exact can.2.1
  | _ => cases mem

/-- Candidates for the names of variables can be written. -/
lemma canonical_candidateName (p : Addr) (n : Nat) : (Term.var (candidateName p n)).Canonical := by
  have chars : ∀ c ∈ Nat.toDigits 10 p ++ suffix n, c.isAlphanum ∨ c = '_' := by
    have digit : ∀ {m : Nat} {c : Char}, c ∈ Nat.toDigits 10 m → c.isAlphanum ∨ c = '_' := by
      intro m c mem
      simp [Char.isAlphanum, isDigit_of_mem_digits mem]
    intro c mem
    rcases List.mem_append.mp mem with mem | mem
    · exact digit mem
    · cases n with
      | zero => cases mem
      | succ n =>
        rcases List.mem_cons.mp mem with rfl | mem
        · exact .inr rfl
        · exact digit mem
  rw [Canonical, toList_candidateName]
  refine .inr ⟨⟨.inr rfl, chars⟩, ?_, rfl⟩
  intro e
  have e := congrArg String.toList e
  rw [toList_candidateName] at e
  exact Nat.toDigits_ne_nil (List.append_eq_nil_iff.mp (List.cons.inj e).2).1

/-! ### Cells of laid terms -/

/-- Where a symbol cell was laid, the term is its atom. -/
lemma Lays.sym (la : s.Lays p t) (hr : s.heap.read? p = some (.sym k)) :
    ∃ n, t = .sym n ∧ s.symbols.name? k = some n := by
  cases la with
  | leaf lf => cases lf <;> simp_all [Heap.Unbound]
  | _ => simp_all

/-- No term is laid as a signature. -/
lemma Lays.not_sig (la : s.Lays p t) : s.heap.read? p ≠ some (.sig f) := by
  intro hr
  cases la with
  | leaf lf => cases lf <;> simp_all [Heap.Unbound]
  | _ => simp_all

/-- Where a list pair was laid, the term is one, and its tail comes second. -/
lemma Lays.lst (la : s.Lays p t) (hr : s.heap.read? p = some (.lst q)) :
    ∃ car cdr, t = .cons car cdr ∧ s.Lays (q + 1) cdr := by
  cases la with
  | leaf lf => cases lf <;> simp_all [Heap.Unbound]
  | _ => simp_all

/-- Where a reference was laid, it is without a name or leads to the variable of its name. -/
lemma Lays.ref (la : s.Lays p t) (hr : s.heap.read? p = some (.ref q)) :
    s.vars.name? p = none ∨ ∃ n, n ≠ "" ∧ t = .var n ∧ s.findVar? n = some q := by
  cases la with
  | leaf lf => cases lf <;> simp_all [Heap.Unbound]
  | _ => simp_all

/-- The rest of a list has the cell of the empty list or of a list pair. -/
lemma Lays.cell_of_endsInNil (la : s.Lays p t) (en : t.EndsInNil) :
    s.heap.read? p = some .nil ∨ ∃ q, s.heap.read? p = some (.lst q) := by
  cases la with
  | leaf lf =>
    cases lf with
    | nil hr => exact .inl hr
    | _ => exact absurd en id
  | record => exact absurd en id
  | cons hr => exact .inr ⟨_, hr⟩

/-! ### Cells that hold canonical terms -/

/-- The symbols of canonical terms are canonical atoms. -/
lemma Holds.sym (ho : s.Holds Canonical p) (hr : s.heap.read? p = some (.sym k)) :
    ∃ n, s.symbols.name? k = some n ∧ (Term.sym n).Canonical := by
  rcases ho with ⟨f, _, _, hf, _⟩ | ⟨t, can, la⟩
  · cases hf.symm.trans hr
  · obtain ⟨n, rfl, hk⟩ := la.sym hr
    exact ⟨n, hk, can⟩

/-- The signatures of canonical terms have identifiers as names, and arguments. -/
lemma Holds.sig (ho : s.Holds Canonical p) (hr : s.heap.read? p = some (.sig f)) :
    ∃ n, s.symbols.name? f.name = some n ∧ Identifier n.toList ∧ 1 ≤ f.arity := by
  rcases ho with ⟨g, n, args, hg, hn, ha, can⟩ | ⟨t, _, la⟩
  · cases hg.symm.trans hr
    rw [Canonical] at can
    exact ⟨n, hn, can.1, ha ▸ can.2.1⟩
  · exact absurd hr la.not_sig

/-- The tail of a list pair is the empty list or another list pair. -/
lemma Holds.tail (ho : s.Holds Canonical p) (hr : s.heap.read? p = some (.lst q)) :
    s.heap.read? (q + 1) = some .nil ∨ ∃ r, s.heap.read? (q + 1) = some (.lst r) := by
  rcases ho with ⟨f, _, _, hf, _⟩ | ⟨t, can, la⟩
  · cases hf.symm.trans hr
  · obtain ⟨car, cdr, rfl, lcdr⟩ := la.lst hr
    rw [Canonical] at can
    exact lcdr.cell_of_endsInNil can.2.2

/-- The cell of a variable was laid for a leaf with the name of the variable. -/
lemma Holds.var {n : String} (ho : s.Holds Canonical p) (nm : s.Named)
    (ub : s.heap.read? p = some (.ref p)) (hf : s.findVar? n = some p) :
    n ≠ "" ∧ (Term.var n).Canonical := by
  rcases ho with ⟨f, _, _, hs, _⟩ | ⟨t, can, la⟩
  · cases hs.symm.trans ub
  · rcases la.ref ub with none | ⟨m, ne, rfl, hm⟩
    · obtain ⟨k, _, ha⟩ := findVar?_eq_some.mp hf
      rw [nm.sound.inverse.mp ha] at none
      cases none
    · obtain rfl : m = n := (nm.varName_eq hm).symm.trans (nm.varName_eq hf)
      exact ⟨ne, can⟩

/-! ### Stores that can be written -/

/-- The names and lists of a store can be written: symbols and variables by names of their own kind,
records by a name with at least one argument, and lists end in the empty list. -/
structure Writable (s : Store) : Prop where
  sym : ∀ {p k}, s.heap.read? p = some (.sym k) →
    ∃ n, s.symbols.name? k = some n ∧ (Term.sym n).Canonical
  sig : ∀ {p f}, s.heap.read? p = some (.sig f) →
    ∃ n, s.symbols.name? f.name = some n ∧ Identifier n.toList ∧ 1 ≤ f.arity
  tail : ∀ {p q}, s.heap.read? p = some (.lst q) →
    s.heap.read? (q + 1) = some .nil ∨ ∃ r, s.heap.read? (q + 1) = some (.lst r)
  var : ∀ {p n}, s.findVar? n = some p → n ≠ "" ∧ (Term.var n).Canonical

namespace Writable

/-- The empty store is writable. -/
lemma empty (capacity : Nat) : (Store.empty capacity).Writable := by
  have noCell : ∀ {p c}, (Store.empty capacity).heap.read? p ≠ some c := by
    intro p c hr
    exact absurd ((Heap.read?_empty capacity p).symm.trans hr) nofun
  refine ⟨fun hr => absurd hr noCell, fun hr => absurd hr noCell, fun hr => absurd hr noCell, ?_⟩
  intro p n hf
  exact absurd ((findVar?_empty capacity n).symm.trans hf) nofun

/-- What holds a canonical term or the signature of one keeps a store writable. -/
lemma grows (wr : s.Writable) (cs : s.Consistent V) (gr : s.Grows s')
    (new : ∀ p, s.heap.size < p → s'.heap.isValid p = true → s'.Holds Canonical p) :
    s'.Writable := by
  have holds : ∀ {p c}, s'.heap.read? p = some c → s.heap.size < p → s'.Holds Canonical p :=
    fun hr lt => new _ lt (Heap.isValid_of_read? hr)
  refine ⟨?_, ?_, ?_, ?_⟩
  · intro p k hr
    rcases cs.old_or_new gr hr with hr' | lt
    · obtain ⟨n, hk, can⟩ := wr.sym hr'
      exact ⟨n, gr.symbols.name hk, can⟩
    · exact (holds hr lt).sym hr
  · intro p f hr
    rcases cs.old_or_new gr hr with hr' | lt
    · obtain ⟨n, hf, id, pos⟩ := wr.sig hr'
      exact ⟨n, gr.symbols.name hf, id, pos⟩
    · exact (holds hr lt).sig hr
  · intro p q hr
    rcases cs.old_or_new gr hr with hr' | lt
    · rcases wr.tail hr' with ht | ⟨r, ht⟩
      · exact .inl (cs.keep gr ht)
      · exact .inr ⟨r, cs.keep gr ht⟩
    · exact (holds hr lt).tail hr
  · intro p n hf
    rcases gr.findVar?_cases cs.named hf with hf' | ⟨_, lt, ub⟩
    · exact wr.var hf'
    · exact (holds ub lt).var gr.named ub hf

/-- Laying a canonical term keeps a store writable. -/
lemma addTerm {root : Addr} (wr : s.Writable) (cs : s.Consistent V)
    (ha : s.addTerm t = .ok (root, s')) (can : t.Canonical) : s'.Writable := by
  obtain ⟨_, gr, _, holds⟩ := addTerm_lays cs.named ha
  apply wr.grows cs gr
  intro p lt val
  exact holds hereditary_canonical can p lt (Heap.isValid_iff.mp val).2

/-- Bindings leave symbols, signatures and lists as they are. -/
lemma binds {h : Heap} (wr : s.Writable) (bd : s.heap.Binds h) :
    Writable { s with heap := h } := by
  refine ⟨?_, ?_, ?_, wr.var⟩
  · intro p k hr
    exact wr.sym ((bd.read?_iff (c := .sym k) nofun).mp hr)
  · intro p f hr
    exact wr.sig ((bd.read?_iff (c := .sig f) nofun).mp hr)
  · intro p q hr
    rcases wr.tail ((bd.read?_iff (c := .lst q) nofun).mp hr) with ht | ⟨r, ht⟩
    · exact .inl ((bd.read?_iff (c := .nil) nofun).mpr ht)
    · exact .inr ⟨r, (bd.read?_iff (c := .lst r) nofun).mpr ht⟩

/-- The name under which a variable is shown can be written. -/
lemma canonical_varName (wr : s.Writable) (nm : s.Named) (x : Addr) :
    s.varName x ≠ "" ∧ (Term.var (s.varName x)).Canonical := by
  cases hn : s.vars.name? x with
  | some k => exact wr.var (nm.paired.findVar?_varName hn)
  | none =>
    obtain ⟨n, name, _⟩ := varName_of_no_name hn
    rw [name]
    refine ⟨?_, canonical_candidateName x n⟩
    intro e
    have e := congrArg String.toList e
    rw [toList_candidateName] at e
    cases e

end Writable

/-! ### Trees of a text -/

variable {ps : List Addr} {ts : List Tree}

/-- If each tree of a row stands for a term, the row stands for these terms. -/
lemma exists_terms {R : Addr → Term → Prop}
    (rds : List.Forall₂ (fun q t => ∃ u, Tree.term? s t = some u ∧ R q u) ps ts) :
    ∃ us, Tree.terms? s ts = some us ∧ List.Forall₂ R ps us := by
  induction rds with
  | nil => exact ⟨[], rfl, .nil⟩
  | cons hd _ ih =>
    obtain ⟨u, hu, rel⟩ := hd
    obtain ⟨us, hus, rels⟩ := ih
    refine ⟨u :: us, ?_, .cons rel rels⟩
    rw [Tree.terms?, hu, hus]
    rfl

/-- The address stands for the empty list or for a list pair. -/
def StandsForList (s : Store) (p : Addr) : Prop :=
  s.heap.view p = .node .nil [] ∨ ∃ q, s.heap.view p = .node .pair [q, q + 1]

/-- A tree stands for a canonical term, as which it is shown at an address. The term ends in the
empty list if the address stands for a list. -/
structure ShownAs (s : Store) (p : Addr) (tree : Tree) (t : Term) : Prop where
  term : tree.term? s = some t
  shows : s.Shows p t
  canonical : t.Canonical
  ends : s.StandsForList p → t.EndsInNil

namespace ShownAs

/-- A symbol is shown as its atom. -/
lemma sym {e : Addr} (hd : s.heap.deref p = .ok (e, .sym k)) {n : String}
    (hk : s.symbols.name? k = some n) (can : (Term.sym n).Canonical) :
    s.ShownAs p (.node (.sym k) []) (.sym n) := by
  refine ⟨?_, .sym hd hk, can, ?_⟩
  · rw [Tree.term?_sym, hk]
    rfl
  · rintro (hl | ⟨q, hl⟩) <;> cases (Heap.view_of_deref hd).symm.trans hl

/-- A record is shown if its arguments are. -/
lemma record {e : Addr} (hd : s.heap.deref p = .ok (e, .rcd q))
    (hf : s.heap.read? q = some (.sig f)) {n : String} (hn : s.symbols.name? f.name = some n)
    (id : Identifier n.toList) (pos : 1 ≤ f.arity) {ts : List Tree}
    (args : List.Forall₂ (fun q t => ∃ u, s.ShownAs q t u) (List.range' (q + 1) f.arity) ts) :
    ∃ t, s.ShownAs p (.node (.record f) ts) t := by
  have parts : List.Forall₂ (fun q t => ∃ u, Tree.term? s t = some u ∧
      (s.Shows q u ∧ u.Canonical)) (List.range' (q + 1) f.arity) ts := by
    refine args.imp ?_
    rintro r t ⟨u, sa⟩
    exact ⟨u, sa.term, sa.shows, sa.canonical⟩
  obtain ⟨us, hus, rels⟩ := exists_terms parts
  have arity : f.arity = us.length := by simpa using rels.length_eq
  refine ⟨.record n us, ?_, .record hd hf hn arity ?_, ?_, ?_⟩
  · rw [Tree.term?_record, hn, hus]
    rfl
  · intro i hi
    have rel := rels.get (i := i) (by simpa [arity] using hi) hi
    simpa using rel.1
  · rw [Canonical]
    refine ⟨id, arity ▸ pos, arity ▸ f.arity_le, canonicalAll_iff.mpr ?_⟩
    intro u mem
    obtain ⟨i, hi, rfl⟩ := List.mem_iff_getElem.mp mem
    exact (rels.get (i := i) (by simpa [arity] using hi) hi).2
  · have hv := Heap.view_of_deref hd
    rw [Heap.cellView, Heap.signature?_eq_some.mpr hf] at hv
    rintro (hl | ⟨q, hl⟩) <;> cases hv.symm.trans hl

/-- A list pair is shown if its parts are and its tail stands for a list. -/
lemma cons {e : Addr} (hd : s.heap.deref p = .ok (e, .lst q)) {t u : Tree} {car cdr : Term}
    (sa : s.ShownAs q t car) (sa' : s.ShownAs (q + 1) u cdr) (list : s.StandsForList (q + 1)) :
    s.ShownAs p (.node .pair [t, u]) (.cons car cdr) := by
  refine ⟨?_, .cons hd sa.shows sa'.shows, ?_, fun _ => sa'.ends list⟩
  · rw [Tree.term?_pair, sa.term, sa'.term]
    rfl
  · rw [Canonical]
    exact ⟨sa.canonical, sa'.canonical, sa'.ends list⟩

end ShownAs

/-- The finite tree at an address is shown as a canonical term. -/
lemma exists_shown {tree : Tree} (cs : s.Consistent s.heap.IsValue) (wr : s.Writable)
    (rd : s.heap.Reads p tree) (vp : s.heap.IsValue p) : ∃ t, s.ShownAs p tree t := by
  -- by the tree: its nodes have names that can be written, as the cells hold canonical terms
  induction rd with
  | @var p x hv =>
    obtain ⟨en, ub⟩ := Heap.view_eq_var_iff.mp hv
    obtain ⟨ne, can⟩ := wr.canonical_varName cs.named x
    refine ⟨_, rfl, .var (Heap.deref_eq_ok_iff.mpr ⟨en, ub⟩) ne, can, ?_⟩
    rintro (hl | ⟨q, hl⟩) <;> cases hv.symm.trans hl
  | @node p l ps ts hv len _ ih =>
    obtain ⟨e, en⟩ := cs.noRefCycle.exists_ends p
    obtain ⟨c, hr, ns⟩ := cs.points.ends vp en
    have hd := Heap.deref_eq_ok_iff.mpr ⟨en, hr⟩
    have hc := hv.symm.trans (Heap.view_of_deref hd)
    cases c with
    | ref q => cases hc
    | sig f => exact absurd rfl (ns f)
    | int v =>
      cases hc
      obtain rfl := List.eq_nil_of_length_eq_zero len.symm
      exact ⟨.int v, rfl, .int hd, trivial, by rintro (hl | ⟨q, hl⟩) <;> cases hv.symm.trans hl⟩
    | nil =>
      cases hc
      obtain rfl := List.eq_nil_of_length_eq_zero len.symm
      exact ⟨.nil, rfl, .nil hd, trivial, fun _ => trivial⟩
    | sym k =>
      cases hc
      obtain rfl := List.eq_nil_of_length_eq_zero len.symm
      obtain ⟨n, hk, can⟩ := wr.sym hr
      exact ⟨_, .sym hd hk can⟩
    | rcd q =>
      obtain ⟨f, hf, args⟩ := cs.points.rcd hr
      obtain ⟨n, hn, id, pos⟩ := wr.sig hf
      rw [Heap.cellView, Heap.signature?_eq_some.mpr hf] at hc
      cases hc
      refine ShownAs.record hd hf hn id pos (List.forall₂_iff_zip.mpr ⟨len, fun {r t} mem => ?_⟩)
      obtain ⟨i, hi, rfl⟩ := List.mem_range'.mp (List.of_mem_zip mem).1
      exact ih _ t mem (by rw [Nat.one_mul]; exact args i hi)
    | lst q =>
      cases hc
      obtain ⟨t, u, rfl⟩ := List.length_eq_two.mp len.symm
      obtain ⟨vq, vq'⟩ := cs.points.lst hr
      obtain ⟨car, sa⟩ := ih q t (by simp) vq
      obtain ⟨cdr, sa'⟩ := ih (q + 1) u (by simp) vq'
      have list : s.StandsForList (q + 1) := by
        rcases wr.tail hr with ht | ⟨r, ht⟩
        · exact .inl (Heap.view_of_ends (.of_cell ht (by simp)) ht)
        · exact .inr ⟨r, Heap.view_of_ends (.of_cell ht (by simp)) ht⟩
      exact ⟨_, .cons hd sa sa' list⟩

/-! ### Stores with spoken terms -/

/-- The stores that an empty one can become by terms that were read from texts and by the
unification of such terms, with the addresses of the terms. A unification may fail or be left after
a number of steps. -/
inductive Spoken : Store → List Addr → Prop where
  | fresh (capacity : Nat) : Spoken (.empty capacity) []
  | addTerm {s s' : Store} {roots : List Addr} {text : String} {v : Int} {t : Term}
      {log log' : Log} {root : Addr} : Spoken s roots → Term.parse text = .ok t →
      s.addTermLogged v t log = .ok (root, log', s') → Spoken s' (root :: roots)
  | unify {s s' : Store} {roots : List Addr} {order : Order} {v : Int} {fuel : Nat} {a b : Addr}
      {u : Unifier} {log log' : Log} : Spoken s roots → a ∈ roots → b ∈ roots →
      (Unifier.start a b).runLogged order v fuel s log = .ok (u, log', s') → Spoken s' roots

variable {roots : List Addr}

/-- A store with spoken terms is consistent and can be written, and its terms are values. -/
lemma Spoken.writable (sp : Spoken s roots) :
    s.Consistent s.heap.IsValue ∧ s.Writable ∧ ∀ r ∈ roots, s.heap.IsValue r := by
  induction sp with
  | fresh capacity =>
    refine ⟨.of_empty capacity ?_, .empty capacity, by simp⟩
    rintro p ⟨c, hr, _⟩
    exact absurd ((Heap.read?_empty capacity p).symm.trans hr) nofun
  | addTerm _ hp ha ih =>
    obtain ⟨cs, wr, values⟩ := ih
    have ha := addTerm_of_logged ha
    obtain ⟨_, gr, la, _⟩ := addTerm_lays cs.named ha
    have can := Term.canonical_of_spells (Term.parse_eq_ok.mp hp)
    refine ⟨cs.addTerm ha (cs.isValue gr) id Heap.IsValue.isValid, wr.addTerm cs ha can, ?_⟩
    intro r mem
    rcases List.mem_cons.mp mem with rfl | mem
    · exact la.isValue
    · exact cs.isValue gr (values r mem)
  | @unify s s' roots order v fuel a b u log log' _ ma mb rn ih =>
    obtain ⟨cs, wr, values⟩ := ih
    have sf := Safe.start cs.points cs.noRefCycle (fun _ => Heap.IsValue.isValid) (values a ma)
      (values b mb)
    rcases Unifier.runLogged_safe order v fuel log cs sf with
      ⟨_, _, _, rn', cs', _, bd⟩ | ⟨stop, _⟩
    · cases rn.symm.trans rn'
      obtain ⟨_, es, ev⟩ := Unifier.runLogged_run rn
      have same : s' = { s with heap := s'.heap } := Store.ext rfl es ev
      refine ⟨cs'.mono bd.isValue Heap.IsValue.isValid, same ▸ wr.binds bd, ?_⟩
      exact fun r mem => bd.isValue (values r mem)
    · cases rn.symm.trans stop

/-- No two variables are shown by the same name, and a finite tree is shown as a text that is read
back as the term it stands for, in which its variables go by these names. -/
theorem parse_render_tree (sp : Spoken s roots) :
    Function.Injective s.varName ∧
    ∀ r ∈ roots, ∀ tree, s.heap.Reads r tree →
      ∃ text t, s.render r = .ok text ∧ tree.term? s = some t ∧ Term.parse text = .ok t := by
  obtain ⟨cs, wr, values⟩ := sp.writable
  refine ⟨cs.named.varName_injective, ?_⟩
  intro r mem tree rd
  obtain ⟨t, sa⟩ := exists_shown cs wr rd (values r mem)
  have ac := Heap.acyclic_iff_reads.mpr ⟨tree, rd⟩
  have back := Term.parse_eq_ok.mpr (Term.spells_render sa.canonical)
  exact ⟨t.render, t, sa.shows.render_eq ac, sa.term, back⟩

/-- The terms `p(_4, _)` and `p(X, Y)` are laid at 1 and 5, and the second is unified with the
first. The name `_4` is that of the variable at 3, next to which is a variable without a name. -/
def clashingNames : Except Fault (Store × List Addr) := do
  let (p, log, s) ← (Store.empty 8).addTermLogged 1 (.record "p" [.var "_4", .anonymous]) .empty
  let (q, log, s) ← s.addTermLogged 1 (.record "p" [.var "X", .var "Y"]) log
  let (_, _, s) ← (Unifier.start q p).runLogged .firstToLast 1 9 s log
  return (s, [q, p])

/-- The store of `clashingNames` is one with spoken terms. -/
lemma spoken_clashingNames (hs : clashingNames = .ok (s, roots)) : Spoken s roots := by
  have first : Term.parse "p(_4, _)" = .ok (.record "p" [.var "_4", .anonymous]) := by cbv
  have second : Term.parse "p(X, Y)" = .ok (.record "p" [.var "X", .var "Y"]) := by cbv
  obtain ⟨⟨p, log₁, s₁⟩, h₁, hs⟩ := exists_of_bind_eq_ok hs
  obtain ⟨⟨q, log₂, s₂⟩, h₂, hs⟩ := exists_of_bind_eq_ok hs
  obtain ⟨⟨u, log₃, s₃⟩, h₃, hs⟩ := exists_of_bind_eq_ok hs
  cases hs
  exact (((Spoken.fresh 8).addTerm first h₁).addTerm second h₂).unify (by simp) (by simp) h₃

/-- The second term is shown with the name of one variable and another name that is made up, and is
read back with these. -/
theorem parse_render_tree_clashingNames :
    ∃ s text n m, clashingNames = .ok (s, [5, 1]) ∧ s.render 5 = .ok text ∧ n ≠ m ∧
      Term.parse text = .ok (.record "p" [.var n, .var m]) := by
  have values : (clashingNames.map fun r =>
      (r.2, r.1.heap.allFinite, r.1.heap.tree 5, r.1.symbols.name? ⟨0⟩))
      = .ok ([5, 1], true, .node (.record ⟨⟨0⟩, 2, by decide⟩) [.var 3, .var 4], some "p") := by
    cbv
  cases hs : clashingNames with
  | error e =>
    rw [hs] at values
    cases values
  | ok r =>
    obtain ⟨s, roots⟩ := r
    rw [hs] at values
    obtain ⟨rfl, rest⟩ := Prod.mk.inj (Except.ok.inj values)
    obtain ⟨finite, rest⟩ := Prod.mk.inj rest
    obtain ⟨tree, name⟩ := Prod.mk.inj rest
    have rd := Heap.reads_of_depthLe (Heap.acyclic_of_allFinite finite 5).depthLe
    obtain ⟨inj, shown⟩ := parse_render_tree (spoken_clashingNames hs)
    obtain ⟨text, t, hr, ht, hp⟩ := shown 5 (by simp) (s.heap.tree 5) rd
    rw [tree, Tree.term?_record, name] at ht
    cases ht
    exact ⟨s, text, _, _, rfl, hr, fun e => absurd (inj e) (by decide), hp⟩

end Store
end TermHeap
