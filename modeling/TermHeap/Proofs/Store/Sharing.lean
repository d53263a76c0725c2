import TermHeap.Proofs.Store.Blocks
import TermHeap.Proofs.Store.Overwrite

/-!
# Which variables of several terms are the same

Terms that are laid one after the other share their named variables and nothing else. The cells of
different positions are different (`Heap.Blocks.cellAt?_injective`), so an anonymous variable, which
is its own cell, is that of one position only; a named one is the variable that the store knows by
this name, and it knows no variable by two names.
-/

namespace TermHeap

/-- The subterm at a position in a row of terms: the number of the term, and where it is in it. -/
def Term.atAll? (ts : List Term) (pos : Nat × List Nat) : Option Term :=
  ts[pos.1]?.bind fun t => t.at? pos.2

namespace Heap

/-- The cell at a position below one of several addresses. -/
def cellAtAll? (h : Heap) (roots : List Addr) (pos : Nat × List Nat) : Option Addr :=
  roots[pos.1]?.bind fun root => h.cellAt? root pos.2

variable {h h' : Heap} {root p q a c d first first' : Addr} {n n' : Nat} {path path' : List Nat}

/-! ### Positions -/

/-- A position leads through any position before it. -/
lemma cellAt?_append (h : Heap) (c : Addr) (path path' : List Nat) :
    h.cellAt? c (path ++ path') = (h.cellAt? c path).bind fun d => h.cellAt? d path' := by
  induction path generalizing c with
  | nil => rfl
  | cons i path ih =>
    rw [List.cons_append, cellAt?, cellAt?]
    cases h.parts? c with
    | none => rfl
    | some parts =>
      dsimp only
      split
      · exact ih _
      · rfl

/-- The last step to a position is one from a cell to a part of it. -/
lemma exists_of_cellAt?_concat {i : Nat} (ha : h.cellAt? root (path ++ [i]) = some a) :
    ∃ c first n, h.cellAt? root path = some c ∧ h.parts? c = some (first, n) ∧ i < n ∧
      a = first + i := by
  rw [cellAt?_append, Option.bind_eq_some_iff] at ha
  obtain ⟨c, hc, hi⟩ := ha
  rw [cellAt?] at hi
  split at hi
  · rename_i first n hp
    split at hi
    · rename_i lt
      exact ⟨c, first, n, hc, hp, lt, (Option.some.inj hi).symm⟩
    · cases hi
  · cases hi

/-- The parts of a cell stay where they are while cells are added. -/
lemma parts?_within (wi : h.Within h') (hp : h.parts? c = some (first, n)) :
    h'.parts? c = some (first, n) := by
  rw [parts?] at hp
  rw [parts?]
  split at hp
  · rename_i p hr
    rw [wi _ _ hr]
    obtain ⟨f, hf, e⟩ := Option.map_eq_some_iff.mp hp
    exact Option.map_eq_some_iff.mpr
      ⟨f, signature?_eq_some.mpr (wi _ _ (signature?_eq_some.mp hf)), e⟩
  · rename_i p hr
    rw [wi _ _ hr]
    exact hp
  · cases hp

/-- A position stays where it is while cells are added. -/
lemma cellAt?_within (wi : h.Within h') (ha : h.cellAt? c path = some a) :
    h'.cellAt? c path = some a := by
  induction path generalizing c with
  | nil => exact ha
  | cons i path ih =>
    rw [cellAt?] at ha
    split at ha
    · rename_i first n hp
      split at ha
      · rename_i lt
        rw [cellAt?_cons (parts?_within wi hp) lt]
        exact ih ha
      · cases ha
    · cases ha

/-- The parts of a cell of a region lie in the region, behind its first cell. -/
lemma Blocks.parts_inside (bl : h.Blocks (root + 1) (h.compounds root q) q) (le : root ≤ c)
    (lt : c < q) (hp : h.parts? c = some (first, n)) : root < first ∧ first + n ≤ q := by
  have mem : c ∈ h.compounds root q := mem_compounds.mpr ⟨le, lt, exists_target?_of_parts? hp⟩
  obtain ⟨r, first', n', _, hp', _, root_lt, le', _, inside⟩ := bl.exists_parts mem
  obtain ⟨rfl, rfl⟩ := Prod.mk.inj (Option.some.inj (hp'.symm.trans hp))
  exact ⟨Nat.lt_of_lt_of_le root_lt le', inside⟩

/-- All positions in a region are at cells of it. -/
lemma Blocks.cellAt?_inside (bl : h.Blocks (root + 1) (h.compounds root q) q)
    (ha : h.cellAt? root path = some a) : root ≤ a ∧ a < q := by
  induction path using List.reverseRecOn generalizing a with
  | nil =>
    cases ha
    exact ⟨Nat.le_refl _, bl.le⟩
  | append_singleton path i ih =>
    obtain ⟨c, first, n, hc, hp, hi, rfl⟩ := exists_of_cellAt?_concat ha
    obtain ⟨le, lt⟩ := ih hc
    obtain ⟨above, below⟩ := bl.parts_inside le lt hp
    exact ⟨Nat.le_of_lt (Nat.lt_of_lt_of_le above (Nat.le_add_right _ _)),
      Nat.lt_of_lt_of_le (Nat.add_lt_add_left hi first) below⟩

/-- The first cell of a region is no part. -/
lemma Blocks.cellAt?_concat_ne (bl : h.Blocks (root + 1) (h.compounds root q) q) {i : Nat} :
    h.cellAt? root (path ++ [i]) ≠ some root := by
  intro ha
  obtain ⟨c, first, n, hc, hp, _, e⟩ := exists_of_cellAt?_concat ha
  obtain ⟨le, lt⟩ := bl.cellAt?_inside hc
  have above := Nat.lt_of_lt_of_le (bl.parts_inside le lt hp).1 (Nat.le_add_right first i)
  exact Nat.ne_of_lt above e

/-- The parts of one cell come before those of a later one. -/
lemma Blocks.parts_apart (bl : h.Blocks p (h.compounds root q) q) (le : root ≤ c) (lt : c < d)
    (lt' : d < q) (hp : h.parts? c = some (first, n)) (hp' : h.parts? d = some (first', n')) :
    first + n ≤ first' := by
  obtain ⟨r, hr⟩ := exists_target?_of_parts? hp'
  exact Nat.le_trans (bl.apart le lt lt' hp hr) (parts?_of_target? hr hp').1

/-- Different positions have different cells. -/
theorem Blocks.cellAt?_injective (bl : h.Blocks (root + 1) (h.compounds root q) q)
    (ha : h.cellAt? root path = some a) (ha' : h.cellAt? root path' = some a) : path = path' := by
  -- from the last step to the first: a part is in one block only and at one place there
  induction path using List.reverseRecOn generalizing path' a with
  | nil =>
    cases ha
    rcases List.eq_nil_or_concat' path' with rfl | ⟨path', i, rfl⟩
    · rfl
    · exact absurd ha' bl.cellAt?_concat_ne
  | append_singleton path i ih =>
    rcases List.eq_nil_or_concat' path' with rfl | ⟨path', j, rfl⟩
    · cases ha'
      exact absurd ha bl.cellAt?_concat_ne
    · obtain ⟨c, first, n, hc, hp, hi, rfl⟩ := exists_of_cellAt?_concat ha
      obtain ⟨d, first', n', hd, hp', hj, e⟩ := exists_of_cellAt?_concat ha'
      obtain ⟨le, lt⟩ := bl.cellAt?_inside hc
      obtain ⟨le', lt'⟩ := bl.cellAt?_inside hd
      rcases Nat.lt_trichotomy c d with below | rfl | above
      · have apart := bl.parts_apart le below lt' hp hp'
        grind
      · obtain ⟨rfl, rfl⟩ := Prod.mk.inj (Option.some.inj (hp.symm.trans hp'))
        rw [ih hc hd, Nat.add_left_cancel e]
      · have apart := bl.parts_apart le' above lt hp' hp
        grind

end Heap

namespace Store

/-- Lay several terms one after the other and report it. -/
def addTermsLogged (v : Int) (s : Store) (ts : List Term) (log : Log) :
    Except Fault (List Addr × Log × Store) :=
  match ts with
  | [] => .ok ([], log, s)
  | t :: ts =>
    match s.addTermLogged v t log with
    | .error e => .error e
    | .ok (root, log, s) =>
      match s.addTermsLogged v ts log with
      | .error e => .error e
      | .ok (roots, log, s) => .ok (root :: roots, log, s)

variable {s s' s'' : Store} {p a e : Addr} {t u : Term} {n m : String} {ts : List Term}
  {roots : List Addr} {path : List Nat} {pos : Nat × List Nat}

/-- Terms that fit are laid one after the other, and it can be reported. -/
lemma exists_addTermsLogged (sd : s.vars.byName.Sound) (ft : ∀ t ∈ ts, t.fits = true) (v : Int)
    (log : Log) : ∃ roots log' s', s.addTermsLogged v ts log = .ok (roots, log', s') ∧
      s.addTerms ts = .ok (roots, s') := by
  induction ts generalizing s log with
  | nil => exact ⟨[], log, s, rfl, rfl⟩
  | cons t ts ih =>
    obtain ⟨root, s₁, ha⟩ := exists_addTerm s (ft t (List.mem_cons_self ..))
    obtain ⟨log₁, hl⟩ := addTermLogged_of_addTerm sd ha v log
    obtain ⟨_, rm, _⟩ := addTerm_spread sd ha
    obtain ⟨roots, log', s', hls, has⟩ :=
      ih rm.sound (fun u mem => ft u (List.mem_cons_of_mem _ mem)) log₁
    refine ⟨root :: roots, log', s', ?_, ?_⟩
    · simp only [addTermsLogged, hl, hls]
    · simp only [addTerms, ha, has]

/-! ### The cells of subterms -/

/-- A term stays laid out while cells are added. -/
lemma Lays.within (la : s.Lays p t) (gr : s.Grows s') (wi : s.heap.Within s'.heap) :
    s'.Lays p t := by
  induction la with
  | leaf lf => exact .leaf (lf.grows gr)
  | record hr hf hn ha _ ih =>
    exact .record (wi _ _ hr) (wi _ _ hf) (gr.symbols.name hn) ha ih
  | cons hr _ _ ih ih' => exact .cons (wi _ _ hr) ih ih'

/-- Where a term is laid out, so are its subterms at their positions. -/
lemma Lays.exists_cellAt? (la : s.Lays p t) (hu : t.at? path = some u) :
    ∃ a, s.heap.cellAt? p path = some a ∧ s.Lays a u := by
  induction path generalizing p t with
  | nil =>
    cases hu
    exact ⟨p, rfl, la⟩
  | cons i path ih =>
    rw [Term.at?] at hu
    split at hu
    · rename_i part hi
      obtain ⟨lt, rfl⟩ := List.getElem?_eq_some_iff.mp hi
      cases la with
      | leaf lf => cases lf <;> cases hi
      | @record _ q f n args hr hf hn ha parts =>
        have hp : s.heap.parts? p = some (q + 1, args.length) := by
          simp only [Heap.parts?, hr, Heap.signature?_eq_some.mpr hf, Option.map_some, ha]
        rw [Heap.cellAt?_cons hp lt]
        exact ih (parts i lt) hu
      | @cons _ q car cdr hr la₁ la₂ =>
        have hp : s.heap.parts? p = some (q, 2) := by simp only [Heap.parts?, hr]
        rw [Heap.cellAt?_cons hp lt]
        have two : i < 2 := lt
        interval_cases i
        · exact ih la₁ hu
        · exact ih la₂ hu
    · cases hu

/-- From `s` to `s'` several terms were laid at addresses of their own. -/
structure LaidAll (s s' : Store) (ts : List Term) (roots : List Addr) : Prop where
  grows : s.Grows s'
  lays : ∀ {pos u}, Term.atAll? ts pos = some u →
    ∃ a, s'.heap.cellAtAll? roots pos = some a ∧ s.heap.size < a ∧ s'.Lays a u
  injective : ∀ {pos pos' u u' a}, Term.atAll? ts pos = some u → Term.atAll? ts pos' = some u' →
    s'.heap.cellAtAll? roots pos = some a → s'.heap.cellAtAll? roots pos' = some a → pos = pos'

/-- A term that is laid before others comes to lie in front of them. -/
lemma LaidAll.cons {root : Addr} (nm : s.Named) (ha : s.addTerm t = .ok (root, s'))
    (all : LaidAll s' s'' ts roots) (wi : s'.heap.Within s''.heap) :
    LaidAll s s'' (t :: ts) (root :: roots) := by
  obtain ⟨rfl, gr, la, _⟩ := addTerm_lays nm ha
  obtain ⟨_, bl⟩ := addTerm_blocks nm.sound.byName ha
  have here : ∀ {path u}, t.at? path = some u → ∃ a, s'.heap.cellAt? s.heap.top path = some a ∧
      s''.heap.cellAt? s.heap.top path = some a ∧ s.heap.size < a ∧ a ≤ s'.heap.size ∧
      s'.Lays a u := by
    intro path u hu
    obtain ⟨a, hc, la'⟩ := la.exists_cellAt? hu
    obtain ⟨le, lt⟩ := bl.cellAt?_inside hc
    exact ⟨a, hc, Heap.cellAt?_within wi hc, le, Nat.le_of_lt_succ lt, la'⟩
  have front : ∀ {path u pos u' a}, t.at? path = some u → Term.atAll? ts pos = some u' →
      s''.heap.cellAt? s.heap.top path = some a → s''.heap.cellAtAll? roots pos ≠ some a := by
    intro path u pos u' a hu hu' hc hc'
    obtain ⟨b, _, hb, _, le, _⟩ := here hu
    obtain ⟨d, hd, lt, _⟩ := all.lays hu'
    obtain rfl := Option.some.inj (hb.symm.trans hc)
    obtain rfl := Option.some.inj (hd.symm.trans hc')
    exact Nat.not_lt_of_le le lt
  refine ⟨gr.trans all.grows, ?_, ?_⟩
  · rintro ⟨i, path⟩ u hu
    cases i with
    | zero =>
      obtain ⟨a, _, hc, lt, _, la'⟩ := here hu
      exact ⟨a, hc, lt, la'.within all.grows wi⟩
    | succ i =>
      have hu : Term.atAll? ts (i, path) = some u := hu
      obtain ⟨a, hc, lt, la'⟩ := all.lays hu
      exact ⟨a, hc, Nat.lt_of_le_of_lt gr.size_le lt, la'⟩
  · rintro ⟨i, path⟩ ⟨j, path'⟩ u u' a hu hu' hc hc'
    cases i with
    | zero =>
      cases j with
      | zero =>
        obtain ⟨b, hb, hb', _⟩ := here hu
        obtain ⟨d, hd, hd', _⟩ := here hu'
        obtain rfl := Option.some.inj (hb'.symm.trans hc)
        obtain rfl := Option.some.inj (hd'.symm.trans hc')
        exact congrArg (Prod.mk 0) (bl.cellAt?_injective hb hd)
      | succ j =>
        have hu' : Term.atAll? ts (j, path') = some u' := hu'
        exact absurd hc' (front hu hu' hc)
    | succ i =>
      have hu : Term.atAll? ts (i, path) = some u := hu
      cases j with
      | zero => exact absurd hc (front hu' hu hc')
      | succ j =>
        have hu' : Term.atAll? ts (j, path') = some u' := hu'
        cases all.injective hu hu' hc hc'
        rfl

/-- Terms that are laid in turn are laid at addresses of their own. -/
lemma addTerms_laidAll (nm : s.Named) (ha : s.addTerms ts = .ok (roots, s')) :
    LaidAll s s' ts roots := by
  induction ts generalizing s roots with
  | nil =>
    cases ha
    exact ⟨.refl nm, nofun, nofun⟩
  | cons t ts ih =>
    rw [addTerms] at ha
    split at ha
    · cases ha
    · rename_i root s₁ ht
      split at ha
      · cases ha
      · rename_i roots s₂ hts
        cases ha
        have all := ih (addTerm_lays nm ht).2.1.named hts
        exact all.cons nm ht fun _ _ => read?_addTerms hts

/-! ### Variables -/

/-- The references from a variable that was laid end at an unbound variable: at itself, without a
name, if it is anonymous, and otherwise at the one that the store knows by its name. -/
lemma LeafAt.exists_ends (lf : s.LeafAt p (.var n))
    (unbound : ∀ {k q}, s.vars.addr? k = some q → s.heap.Unbound q) :
    ∃ e, s.heap.Ends p e ∧ s.heap.Unbound e ∧ (n = "" → e = p ∧ s.vars.name? e = none) ∧
      (n ≠ "" → s.findVar? n = some e) := by
  cases lf with
  | fresh ub hn => exact ⟨p, ub.ends, ub, fun _ => ⟨rfl, hn⟩, fun ne => absurd rfl ne⟩
  | @var _ q ne hr hf =>
    obtain ⟨k, _, ha⟩ := findVar?_eq_some.mp hf
    have ub := unbound ha
    refine ⟨q, ?_, ub, fun e => absurd e ne, fun _ => hf⟩
    rcases eq_or_ne q p with rfl | other
    · exact ub.ends
    · exact .next ⟨hr, other⟩ ub.ends

/-- The variable of a name has a name. -/
lemma Named.name?_ne_none (nm : s.Named) (hf : s.findVar? n = some p) :
    s.vars.name? p ≠ none := by
  obtain ⟨k, _, ha⟩ := findVar?_eq_some.mp hf
  rw [nm.sound.inverse.mp ha]
  exact nofun

/-- A variable has one name only. -/
lemma Named.findVar?_injective (nm : s.Named) (hn : s.findVar? n = some p)
    (hm : s.findVar? m = some p) : n = m := (nm.varName_eq hn).symm.trans (nm.varName_eq hm)

/-- **Named variables are shared, anonymous ones are not.** Terms that fit are laid one after the
other onto an empty heap. Then the cell of each variable leads to an unbound variable, and the cells
of two variables at different positions, be it in one term or in two, lead to the same one just if
both have the same name. The cell of an anonymous variable leads to itself. -/
theorem addTerms_sharing (capacity : Nat) (ft : ∀ t ∈ ts, t.fits = true) (v : Int) (log : Log) :
    ∃ roots log' s', (empty capacity).addTermsLogged v ts log = .ok (roots, log', s') ∧
      (∀ {pos n}, Term.atAll? ts pos = some (.var n) →
        ∃ p e, s'.heap.cellAtAll? roots pos = some p ∧ s'.heap.deref p = .ok (e, .ref e) ∧
          (n = "" → e = p)) ∧
      ∀ {pos pos' n m p q e d x y}, pos ≠ pos' →
        Term.atAll? ts pos = some (.var n) → s'.heap.cellAtAll? roots pos = some p →
        Term.atAll? ts pos' = some (.var m) → s'.heap.cellAtAll? roots pos' = some q →
        s'.heap.deref p = .ok (e, x) → s'.heap.deref q = .ok (d, y) →
        (e = d ↔ n ≠ "" ∧ n = m) := by
  have nm := named_empty capacity
  obtain ⟨roots, log', s', hl, ha⟩ := exists_addTermsLogged nm.sound.byName ft v log
  have all := addTerms_laidAll nm ha
  have unbound : ∀ {k q}, s'.vars.addr? k = some q → s'.heap.Unbound q := by
    intro k q hk
    rcases all.grows.fresh hk with old | ⟨_, ub⟩
    · cases Variables.addr?_empty.symm.trans old
    · exact ub
  have ends : ∀ {pos n}, Term.atAll? ts pos = some (.var n) →
      ∃ p e, s'.heap.cellAtAll? roots pos = some p ∧ s'.heap.Ends p e ∧ s'.heap.Unbound e ∧
        (n = "" → e = p ∧ s'.vars.name? e = none) ∧ (n ≠ "" → s'.findVar? n = some e) := by
    intro pos n hu
    obtain ⟨p, hc, _, la⟩ := all.lays hu
    cases la with
    | leaf lf =>
      obtain ⟨e, en, ub, rest⟩ := lf.exists_ends unbound
      exact ⟨p, e, hc, en, ub, rest⟩
  refine ⟨roots, log', s', hl, ?_, ?_⟩
  · intro pos n hu
    obtain ⟨p, e, hc, en, ub, anonymous, _⟩ := ends hu
    exact ⟨p, e, hc, Heap.deref_eq_ok_iff.mpr ⟨en, ub⟩, fun h => (anonymous h).1⟩
  · intro pos pos' n m p q e d x y ne hu hp hu' hq he hd
    obtain ⟨p', e', hp', en, _, anonymous, named⟩ := ends hu
    obtain ⟨q', d', hq', en', _, anonymous', named'⟩ := ends hu'
    obtain rfl := Option.some.inj (hp'.symm.trans hp)
    obtain rfl := Option.some.inj (hq'.symm.trans hq)
    obtain rfl := en.unique (Heap.deref_eq_ok_iff.mp he).1
    obtain rfl := en'.unique (Heap.deref_eq_ok_iff.mp hd).1
    rcases eq_or_ne n "" with hn | hn
    · obtain ⟨rfl, unnamed⟩ := anonymous hn
      refine ⟨?_, fun h => absurd hn h.1⟩
      rintro rfl
      rcases eq_or_ne m "" with hm | hm
      · obtain ⟨rfl, _⟩ := anonymous' hm
        exact absurd (all.injective hu hu' hp hq) ne
      · exact absurd unnamed (all.grows.named.name?_ne_none (named' hm))
    · rcases eq_or_ne m "" with hm | hm
      · obtain ⟨rfl, unnamed⟩ := anonymous' hm
        refine ⟨?_, fun h => absurd (h.2.trans hm) hn⟩
        rintro rfl
        exact absurd unnamed (all.grows.named.name?_ne_none (named hn))
      · refine ⟨?_, ?_⟩
        · rintro rfl
          exact ⟨hn, all.grows.named.findVar?_injective (named hn) (named' hm)⟩
        · rintro ⟨_, rfl⟩
          exact Option.some.inj ((named hn).symm.trans (named' hm))

/-- The terms `f(X, _)` and `[X' | X]`, where `X'` is an atom with the name of the variable. -/
def atomAndVariable : List Term :=
  [.record "f" [.var "X", .anonymous], .cons (.sym "X") (.var "X")]

/-- The two variables `X` are the same, and the anonymous one is another. -/
theorem addTerms_sharing_atomAndVariable :
    ∃ roots log s' p q r e d, (empty 4).addTermsLogged 1 atomAndVariable .empty =
        .ok (roots, log, s') ∧
      s'.heap.cellAtAll? roots (0, [0]) = some p ∧ s'.heap.cellAtAll? roots (0, [1]) = some q ∧
      s'.heap.cellAtAll? roots (1, [1]) = some r ∧ s'.heap.deref p = .ok (e, .ref e) ∧
      s'.heap.deref q = .ok (q, .ref q) ∧ s'.heap.deref r = .ok (d, .ref d) ∧ e = d ∧ q ≠ d := by
  have fits : ∀ t ∈ atomAndVariable, t.fits = true := by decide
  obtain ⟨roots, log, s', hl, ends, same⟩ := addTerms_sharing 4 fits 1 .empty
  have first : Term.atAll? atomAndVariable (0, [0]) = some (.var "X") := rfl
  have second : Term.atAll? atomAndVariable (0, [1]) = some (.var "") := rfl
  have third : Term.atAll? atomAndVariable (1, [1]) = some (.var "X") := rfl
  obtain ⟨p, e, hp, he, _⟩ := ends first
  obtain ⟨q, f, hq, hf, itself⟩ := ends second
  obtain ⟨r, d, hr, hd, _⟩ := ends third
  obtain rfl := itself rfl
  refine ⟨roots, log, s', p, f, r, e, d, hl, hp, hq, hr, he, hf, hd, ?_, ?_⟩
  · exact (same (by decide) first hp third hr he hd).mpr ⟨by decide, rfl⟩
  · exact fun eq => ((same (by decide) second hq third hr hf hd).mp eq).1 rfl

end Store
end TermHeap
