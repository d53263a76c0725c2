import TermHeap.Proofs.Heap.Reach
import TermHeap.Proofs.Store.PrinterRun
import TermHeap.Proofs.Store.RoundTrip
import TermHeap.Proofs.Store.TwoStacks

/-!
# The printer and the reader agree

Whatever the cells are, the printer writes a mark exactly where the term cannot be shown
(`Prints.noMark_iff`), which is where it cannot be read either (`exists_shows_iff`), and what is
shown is read but for the names of variables that are not kept (`Shows.readTerm_eq`). So the printer
and the reader, each of which finds its own way through references, tails and damaged cells, come to
the same term (`print_readTerm`).
-/

namespace TermHeap.Store

variable {s : Store} {p q e r : Addr} {piece : Piece} {w : Written} {new ps : List Piece}
  {ws : List Written} {t u : Term}

/-! ### Marks -/

/-- What a piece stands for is a term that can be shown. -/
def Showable (s : Store) : Piece → Prop
  | .value p _ | .tail p _ => ∃ t, s.Shows p t
  | .args p n _ => ∀ i < n, ∃ t, s.Shows (p + i) t
  | .close => True

/-- Nothing is shown for an address whose references lead to no cell. -/
lemma not_shows_of_error (hd : s.heap.deref p = .error q) : ¬ ∃ t, s.Shows p t := by
  rintro ⟨t, sh⟩
  cases sh <;> simp_all

/-- Nothing is shown for a signature that stands where a value should be. -/
lemma not_shows_of_sig {f : Signature} (hd : s.heap.deref p = .ok (e, .sig f)) :
    ¬ ∃ t, s.Shows p t := by
  rintro ⟨t, sh⟩
  cases sh <;> simp_all

/-- Nothing is shown for a record without a signature. -/
lemma not_shows_of_no_signature (hd : s.heap.deref p = .ok (e, .rcd q))
    (hq : s.heap.signature? q = none) : ¬ ∃ t, s.Shows p t := by
  rintro ⟨t, sh⟩
  cases sh with
  | record hd' hf _ _ _ =>
    cases hd.symm.trans hd'
    cases hq.symm.trans (Heap.signature?_eq_some.mpr hf)
  | var hd' _ | int hd' | sym hd' _ | nil hd' | cons hd' _ _ => cases hd.symm.trans hd'

/-- A record is shown exactly if its signature can be read and its arguments are shown. -/
lemma shows_record_iff {f : Signature} {k : String} (hd : s.heap.deref p = .ok (e, .rcd q))
    (hf : s.heap.read? q = some (.sig f)) (hk : s.symbols.name? f.name = some k) :
    (∃ t, s.Shows p t) ↔ ∀ i < f.arity, ∃ t, s.Shows (q + 1 + i) t := by
  constructor
  · rintro ⟨t, sh⟩ i hi
    cases sh with
    | @record _ _ q' f' _ args hd' hf' _ ha sub =>
      cases hd.symm.trans hd'
      cases hf.symm.trans hf'
      exact ⟨_, sub i (ha ▸ hi)⟩
    | var hd' _ | int hd' | sym hd' _ | nil hd' | cons hd' _ _ => cases hd.symm.trans hd'
  · intro args
    choose! arg shown using args
    have len : f.arity = ((List.range f.arity).map arg).length := by simp
    refine ⟨_, .record hd hf hk len ?_⟩
    intro i hi
    have lt : i < f.arity := by simpa using hi
    simpa using shown i lt

/-- A list pair is shown exactly if its head and its tail are. -/
lemma shows_pair_iff (hd : s.heap.deref p = .ok (e, .lst q)) :
    (∃ t, s.Shows p t) ↔ (∃ t, s.Shows q t) ∧ ∃ t, s.Shows (q + 1) t := by
  constructor
  · rintro ⟨t, sh⟩
    cases sh with
    | cons hd' car cdr =>
      cases hd.symm.trans hd'
      exact ⟨⟨_, car⟩, ⟨_, cdr⟩⟩
    | var hd' _ | int hd' | sym hd' _ | nil hd' | record hd' _ _ _ _ => cases hd.symm.trans hd'
  · rintro ⟨⟨car, first⟩, ⟨cdr, second⟩⟩
    exact ⟨_, .cons hd first second⟩

/-- A step that writes no mark leaves terms of which all can be shown, if its own can; a mark is
written only for what cannot be shown. -/
lemma Emits.showable_iff (named : ∀ x, s.varName x ≠ "") (em : s.Emits piece w new) :
    s.Showable piece ↔ w.isMark = false ∧ ∀ q ∈ new, s.Showable q := by
  cases em with
  | unresolved hd | badTail hd => simpa [Showable, Written.isMark] using not_shows_of_error hd
  | var hd => simpa [Showable, Written.isMark] using ⟨_, Shows.var hd (named _)⟩
  | int hd => simpa [Showable, Written.isMark] using ⟨_, Shows.int hd⟩
  | sym hd hk => simpa [Showable, Written.isMark] using ⟨_, Shows.sym hd hk⟩
  | nil hd | endTail hd => simpa [Showable, Written.isMark] using ⟨_, Shows.nil hd⟩
  | signature hd _ => simpa [Showable, Written.isMark] using not_shows_of_sig hd
  | noSignature hd hq => simpa [Showable, Written.isMark] using not_shows_of_no_signature hd hq
  | constant hd hf hk ha =>
    simpa [Showable, Written.isMark, ha] using shows_record_iff hd hf hk
  | record hd hf hk ha =>
    have args := shows_record_iff hd hf hk
    rw [ha, forall_lt_succ_args fun q => ∃ t, s.Shows q t] at args
    simpa [Showable, Written.isMark] using args
  | list hd | listTail hd => simpa [Showable, Written.isMark] using shows_pair_iff hd
  | otherTail hd _ _ =>
    have eq := (deref_end hd).trans hd.symm
    have same : (∃ t, s.Shows _ t) ↔ ∃ t, s.Shows _ t :=
      ⟨fun ⟨t, sh⟩ => ⟨t, sh.congr eq⟩, fun ⟨t, sh⟩ => ⟨t, sh.congr eq.symm⟩⟩
    simpa [Showable, Written.isMark] using same
  | noArgs => simp [Showable, Written.isMark]
  | nextArg =>
    simpa [Showable, Written.isMark] using forall_lt_succ_args fun q => ∃ t, s.Shows q t
  | close => simp [Showable, Written.isMark]

/-- A run writes no mark exactly if all its pieces stand for terms that can be shown. -/
theorem Prints.noMark_iff (named : ∀ x, s.varName x ≠ "") (pr : s.Prints ps ws) :
    (∀ w ∈ ws, w.isMark = false) ↔ ∀ piece ∈ ps, s.Showable piece := by
  induction pr with
  | nil => simp
  | cons em _ ih =>
    rw [List.forall_mem_cons, List.forall_mem_cons, em.showable_iff named, ih,
      List.forall_mem_append, and_assoc]

/-! ### What is shown is read -/

/-- The variable that is read where one is shown by a name. -/
def keep (n : String) : Except ReadError Term := .ok (readName n)

/-- A name that begins with no underscore is kept. -/
lemma keep_eq {n : String} (ne : n ≠ "") (hn : n.toList.head? ≠ some '_') :
    keep n = .ok (.var n) := by
  rw [keep, readName_eq_var ne hn]

mutual

/-- Every term can be read with the names that are kept. -/
lemma exists_keep : (t : Term) → ∃ u, t.instantiate keep = .ok u
  | .var n => by
    rw [Term.instantiate]
    split
    · exact ⟨_, rfl⟩
    · exact ⟨_, rfl⟩
  | .record n args => by
    obtain ⟨us, hus⟩ := exists_keepAll args
    rw [Term.instantiate, hus]
    exact ⟨_, rfl⟩
  | .cons car cdr => by
    obtain ⟨u, hu⟩ := exists_keep car
    obtain ⟨v, hv⟩ := exists_keep cdr
    rw [Term.instantiate, hu, hv]
    exact ⟨_, rfl⟩
  | .int _ => ⟨_, rfl⟩
  | .sym _ => ⟨_, rfl⟩
  | .nil => ⟨_, rfl⟩

/-- Several terms can be read with the names that are kept. -/
lemma exists_keepAll : (ts : List Term) → ∃ us, Term.instantiateAll keep ts = .ok us
  | [] => ⟨_, rfl⟩
  | t :: ts => by
    obtain ⟨u, hu⟩ := exists_keep t
    obtain ⟨us, hus⟩ := exists_keepAll ts
    rw [Term.instantiateAll, hu, hus]
    exact ⟨_, rfl⟩

end

/-- What is shown is read, but for the names of variables that are not kept. -/
theorem Shows.readTerm_eq (sh : s.Shows p u) (ac : s.heap.Acyclic p) :
    s.readTerm p = u.instantiate keep := by
  induction sh with
  | @var p x q hd ne =>
    rw [Store.readTerm_eq ac, readLevel, hd, Term.instantiate, if_neg (by simpa using ne), keep,
      ← readVar_eq]
    rfl
  | int hd =>
    rw [Store.readTerm_eq ac, readLevel, hd]
    rfl
  | sym hd hk =>
    rw [Store.readTerm_eq ac, readLevel, hd]
    simp only [readCell, hk]
    rfl
  | nil hd =>
    rw [Store.readTerm_eq ac, readLevel, hd]
    rfl
  | @record p e q f n args hd hf hn ha _ ih =>
    have parts : ∀ i (hi : i < args.length), s.readTerm (q + 1 + i) = args[i].instantiate keep := by
      intro i hi
      exact ih i hi (ac.step (Heap.part_of_record hd hf (ha ▸ hi)))
    rw [Store.readTerm_eq ac, readLevel, hd]
    simp only [readCell, hf, hn, ha, mapM_readTerm parts]
    rw [Term.instantiate]
  | @cons p e q car cdr hd _ _ first second =>
    obtain ⟨car, cdr⟩ := Heap.part_of_pair hd
    rw [Store.readTerm_eq ac, readLevel, hd]
    simp only [readCell, first (ac.step car), second (ac.step cdr)]
    rw [Term.instantiate]

/-- What is read can be shown. -/
lemma ReadsAs.exists_shows (named : ∀ x, s.varName x ≠ "") (ra : s.ReadsAs p (.ok t)) :
    ∃ u, s.Shows p u := by
  generalize eq : Except.ok t = result at ra
  induction ra generalizing t with
  | var hd => exact ⟨_, .var hd (named _)⟩
  | int hd => exact ⟨_, .int hd⟩
  | nil hd => exact ⟨_, .nil hd⟩
  | sym hd hk => exact ⟨_, .sym hd hk⟩
  | record hd hf hn len _ ih =>
    refine (shows_record_iff hd hf hn).mpr fun i hi => ?_
    exact ih i (len ▸ hi) rfl
  | cons hd _ _ first second => exact (shows_pair_iff hd).mpr ⟨first rfl, second rfl⟩
  | _ => cases eq

/-- A term is read exactly where one can be shown. -/
theorem exists_shows_iff (named : ∀ x, s.varName x ≠ "") (ac : s.heap.Acyclic p) :
    (∃ u, s.Shows p u) ↔ ∃ t, s.readTerm p = .ok t := by
  constructor
  · rintro ⟨u, sh⟩
    rw [sh.readTerm_eq ac]
    exact exists_keep u
  · rintro ⟨t, ht⟩
    exact ReadsAs.exists_shows named (ht ▸ readsAs_readTerm ac)

/-- All variables of several terms are those of each. -/
lemma allVarsOf_iff {ok : String → Bool} {ts : List Term} :
    Term.allVarsOf ok ts = true ↔ ∀ t ∈ ts, t.allVars ok = true := by
  induction ts with
  | nil => simp [Term.allVarsOf]
  | cons t ts ih => simp [Term.allVarsOf, ih]

/-- The variables of a shown term are those that stand in it. -/
lemma Shows.allVars {ok : String → Bool} (sh : s.Shows p u)
    (good : ∀ x, s.heap.Occurs p x → ok (s.varName x) = true) : u.allVars ok = true := by
  have below : ∀ {p q}, s.heap.Part p q → (∀ x, s.heap.Occurs p x → ok (s.varName x) = true) →
      ∀ x, s.heap.Occurs q x → ok (s.varName x) = true := by
    rintro p q pt good x ⟨r, down, hv⟩
    exact good x ⟨r, .head pt down, hv⟩
  induction sh with
  | var hd _ => exact good _ ⟨_, .refl, Heap.view_of_deref hd⟩
  | @record p e q f n args hd hf hn ha _ ih =>
    rw [Term.allVars, allVarsOf_iff]
    intro t mem
    obtain ⟨i, hi, rfl⟩ := List.mem_iff_getElem.mp mem
    exact ih i hi (below (Heap.part_of_record hd hf (ha ▸ hi)) good)
  | @cons p e q car cdr hd _ _ first second =>
    obtain ⟨car, cdr⟩ := Heap.part_of_pair hd
    rw [Term.allVars, first (below car good), second (below cdr good)]
    rfl
  | _ => rfl

/-- **The printer and the reader agree.** On a heap of any cells with known symbols and at an
address below which nothing is a part of itself, the printer comes to its end, and it writes a mark
for a cell that cannot be read exactly if no term is read. Otherwise what it writes is the written
form of the term that is read, with all variables under the names by which they are shown; and of
the very term that is read, if the name of no variable in it begins with an underscore. -/
theorem print_readTerm (lg : s.Legible) (ac : s.heap.Acyclic r) :
    (∃ ws, s.Prints [.value r s.heap.size] ws) ∧
    ∀ ws, s.Prints [.value r s.heap.size] ws →
      s.render r = .ok (Written.join ws) ∧
      ((∃ w ∈ ws, w.isMark = true) ↔ ∃ e, s.readTerm r = .error e) ∧
      ∀ t, s.readTerm r = .ok t →
        (∃ u, s.Shows r u ∧ u.instantiate keep = .ok t ∧ s.render r = .ok u.render) ∧
        ((∀ x, s.heap.Occurs r x → (s.varName x).toList.head? ≠ some '_') →
          s.render r = .ok t.render) := by
  refine ⟨exists_prints lg.known ac, ?_⟩
  intro ws pr
  refine ⟨?_, ?_, ?_⟩
  · rw [render, pr.layout_eq, String.empty_append]
  · have none : (∀ w ∈ ws, w.isMark = false) ↔ ∃ t, s.readTerm r = .ok t := by
      rw [pr.noMark_iff lg.varName_ne, List.forall_mem_singleton]
      exact exists_shows_iff lg.varName_ne ac
    constructor
    · rintro ⟨w, mem, mark⟩
      cases hr : s.readTerm r with
      | error e => exact ⟨e, rfl⟩
      | ok t => exact absurd mark (by simp [none.mpr ⟨t, hr⟩ w mem])
    · rintro ⟨e, he⟩
      by_contra no
      obtain ⟨t, ht⟩ := none.mp fun w mem => Bool.eq_false_iff.mpr fun mark => no ⟨w, mem, mark⟩
      cases he.symm.trans ht
  · intro t ht
    obtain ⟨u, sh⟩ := (exists_shows_iff lg.varName_ne ac).mpr ⟨t, ht⟩
    have kept : u.instantiate keep = .ok t := (sh.readTerm_eq ac).symm.trans ht
    refine ⟨⟨u, sh, kept, sh.render_eq ac⟩, ?_⟩
    intro good
    have all : u.allVars (fun n => n.toList.head? != some '_') = true :=
      sh.allVars fun x oc => by simpa using good x oc
    have self : u.instantiate keep = .ok u :=
      Term.instantiate_self (fun n hn ne => keep_eq ne (by simpa using hn)) u all
    obtain rfl : u = t := Except.ok.inj (self.symm.trans kept)
    exact sh.render_eq ac

/-- A store is legible if no symbol is empty and the symbols of all cells are known. -/
lemma Edited.legible {names : Array String} (ed : s.Edited) (eq : s.symbols.names = names)
    (ne : ∀ m ∈ names.toList, m ≠ "")
    (cells : ∀ i < s.heap.size, (s.heap.read? (i + 1)).all (symbolBelow names.size) = true) :
    s.Legible := by
  subst eq
  have cell : ∀ {p c}, s.heap.read? p = some c → symbolBelow s.symbols.size c = true :=
    Heap.all_cells cells
  refine ⟨fun hr => by simpa [symbolBelow] using cell hr,
    fun hr => by simpa [symbolBelow] using cell hr, ?_⟩
  intro p k hn
  obtain ⟨m, hk⟩ := ed.known.2 hn
  rw [Symbols.name?] at hk
  exact ⟨m, ne m (Array.mem_toList_iff.mpr (Array.mem_of_getElem? hk)), hk⟩

/-- A name that was given to a variable is the name by which it is shown. -/
lemma Edited.varName_assignName (ed : s.Edited) (p : Addr) (m : String) :
    (s.assignName p m).varName p = m :=
  varName_of_name? (ed.known.1.get?_put.trans (if_pos rfl))
    (Symbols.name?_of_find? (s.symbols.find?_intern m))

/-- The record `f([X, Y | 3])`, in which only `X` has a name, and the list `[1 | r]` with a record
`r` that points at an integer instead of a signature. -/
def halfDamaged : Store :=
  { (((Store.empty 16).intern "f").2.assignName 4 "X") with
    heap := ⟨⟨#[.rcd 2, .sig ⟨⟨0⟩, 1, by decide⟩, .lst 4, .ref 4, .lst 6, .ref 6, .int 3, .lst 9,
      .int 1, .rcd 7], [], 16⟩⟩ }

/-- The list is written with a mark. The record is written with a name that is not read; its first
variable is read as it is written. -/
theorem print_readTerm_halfDamaged :
    (∃ ws, halfDamaged.Prints [.value 8 10] ws ∧ halfDamaged.render 8 = .ok (Written.join ws) ∧
      ∃ w ∈ ws, w.isMark = true) ∧
    halfDamaged.render 8 = .ok "[1 | $bad(7)]" ∧
    (∃ u, halfDamaged.Shows 1 u ∧
      u.instantiate keep = .ok (.record "f" [.cons (.var "X") (.cons .anonymous (.int 3))]) ∧
      halfDamaged.render 1 = .ok u.render) ∧
    halfDamaged.render 4 = .ok (Term.var "X").render := by
  have named : (((Store.empty 16).intern "f").2.assignName 4 "X").Edited :=
    .assignName 4 "X" (.intern "f" (.fresh 16))
  have names : halfDamaged.symbols.names = #["f", "X"] := by cbv
  have lg : halfDamaged.Legible := (Edited.heap _ named).legible names (by decide) (by decide)
  have ac := Heap.acyclic_of_allFinite (h := halfDamaged.heap) (by decide)
  have x : halfDamaged.varName 4 = "X" :=
    Edited.varName_assignName (.intern "f" (.fresh 16)) 4 "X"
  have y : halfDamaged.varName 6 = "_6" := by
    rw [varName_def]
    cbv
  have shX : halfDamaged.Shows 4 (.var "X") := x ▸ .var (q := 4) rfl (lg.varName_ne 4)
  have shY : halfDamaged.Shows 6 (.var "_6") := y ▸ .var (q := 6) rfl (lg.varName_ne 6)
  have sh : halfDamaged.Shows 1 (.record "f" [.cons (.var "X") (.cons (.var "_6") (.int 3))]) := by
    refine .record (q := 2) rfl rfl (by cbv) rfl ?_
    rintro (_ | i) hi
    · exact .cons (q := 4) rfl shX (.cons (q := 6) rfl shY (.int rfl))
    · exact absurd hi (by simp)
  have bad : halfDamaged.readTerm 8 = .error (.notSignature 7) := by cbv
  have read : halfDamaged.readTerm 1 =
      .ok (.record "f" [.cons (.var "X") (.cons .anonymous (.int 3))]) := by
    rw [sh.readTerm_eq (ac 1)]
    cbv
  have readX : halfDamaged.readTerm 4 = .ok (.var "X") := by
    rw [shX.readTerm_eq (ac 4)]
    cbv
  obtain ⟨⟨ws, pr⟩, marked⟩ := print_readTerm lg (ac 8)
  obtain ⟨⟨ws₁, pr₁⟩, shown⟩ := print_readTerm lg (ac 1)
  obtain ⟨⟨ws₄, pr₄⟩, same⟩ := print_readTerm lg (ac 4)
  refine ⟨⟨ws, pr, (marked ws pr).1, (marked ws pr).2.1.mpr ⟨_, bad⟩⟩, by cbv,
    ((shown ws₁ pr₁).2.2 _ read).1, ((same ws₄ pr₄).2.2 _ readX).2 ?_⟩
  have view : halfDamaged.heap.view 4 = .var 4 := by decide
  rintro z ⟨r, down, hv⟩
  obtain rfl | ⟨q, ⟨l, ps, hn, _⟩, _⟩ := down.cases_head
  · cases view.symm.trans hv
    rw [x]
    decide
  · cases view.symm.trans hn

end TermHeap.Store
