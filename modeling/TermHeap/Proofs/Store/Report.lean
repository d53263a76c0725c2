import TermHeap.Proofs.Store.Consistency
import TermHeap.Unify.Log

/-!
# Reports

To report what is done, cells and terms are shown. A symbol that is not in the table cannot be
shown, nor can a term without end, and nothing else keeps a term from being shown (`layout_error`).
In a consistent store all symbols are known, so every cell has a text (`Consistent.exists_rawText`),
and a term that was laid can be reported (`exists_addTermLogged`).
-/

namespace TermHeap.Store

/-- The symbols of all cells are in the table. -/
structure Known (s : Store) : Prop where
  sym : ∀ {p k}, s.heap.read? p = some (.sym k) → ∃ n, s.symbols.name? k = some n
  sig : ∀ {p f}, s.heap.read? p = some (.sig f) → ∃ n, s.symbols.name? f.name = some n

variable {s : Store} {V : Addr → Prop} {p : Addr} {c : Cell} {k : Symbol} {f : Signature}
  {n : String} {e : Fault}

/-- A consistent store knows the symbols of its cells. -/
lemma Consistent.known (cs : s.Consistent V) : s.Known := ⟨cs.sym, cs.sig⟩

/-- Not all symbols are known if a symbol cell has one without a name. -/
lemma not_known_of_sym (hr : s.heap.read? p = some (.sym k)) (hk : s.symbols.name? k = none) :
    ¬ s.Known := by
  intro kn
  obtain ⟨n, hn⟩ := kn.sym hr
  cases hk.symm.trans hn

/-- Not all symbols are known if a signature cell has one without a name. -/
lemma not_known_of_sig (hr : s.heap.read? p = some (.sig f))
    (hk : s.symbols.name? f.name = none) : ¬ s.Known := by
  intro kn
  obtain ⟨n, hn⟩ := kn.sig hr
  cases hk.symm.trans hn

/-- Binding variables adds no symbols to the cells. -/
lemma Known.binds {h : Heap} (kn : s.Known) (bd : s.heap.Binds h) :
    Known { s with heap := h } := by
  refine ⟨?_, ?_⟩
  · intro p k hr
    exact kn.sym ((bd.read?_iff (c := .sym k) nofun).mp hr)
  · intro p f hr
    exact kn.sig ((bd.read?_iff (c := .sig f) nofun).mp hr)

/-- Whether the symbol of a cell is one of the first `m`. -/
def symbolBelow (m : Nat) : Cell → Bool
  | .sym k => k.index < m
  | .sig f => f.name.index < m
  | _ => true

/-- A store in which all cells pass this check knows their symbols. -/
lemma known_of_check
    (cells : ∀ i < s.heap.size, (s.heap.read? (i + 1)).all (symbolBelow s.symbols.size) = true) :
    s.Known :=
  ⟨fun hr => Symbols.exists_name?_iff.mpr (by simpa [symbolBelow] using Heap.all_cells cells hr),
    fun hr => Symbols.exists_name?_iff.mpr (by simpa [symbolBelow] using Heap.all_cells cells hr)⟩

/-! ### Terms and cells as text -/

/-- A symbol in the table is shown by its name. -/
lemma name_of_name? {symbols : Symbols} (hk : symbols.name? k = some n) :
    symbols.name k = .ok n := Symbols.name_eq_ok.mpr hk

/-- A signature with a known symbol is shown by its name and arity. -/
lemma signatureText_of_name? (hk : s.symbols.name? f.name = some n) :
    s.signatureText f = .ok (n ++ "/" ++ toString f.arity) := by
  rw [signatureText, name_of_name? hk]
  rfl

/-- A symbol that is not in the table cannot be shown. -/
lemma name_of_unknown {symbols : Symbols} (hk : symbols.name? k = none) :
    symbols.name k = .error .noSymbol := by
  rw [Symbols.name, hk]

/-- A signature with a symbol that is not in the table cannot be shown. -/
lemma signatureText_of_unknown (hk : s.symbols.name? f.name = none) :
    s.signatureText f = .error .noSymbol := by
  rw [signatureText, name_of_unknown hk]
  rfl

/-- A record whose signature has a symbol that is not in the table cannot be shown. -/
lemma recordShape_of_unknown (hf : s.heap.signature? p = some f)
    (hk : s.symbols.name? f.name = none) : s.recordShape p = .error .noSymbol := by
  obtain ⟨k, m, hm⟩ := f
  have unknown := name_of_unknown hk
  cases m with
  | zero =>
    simp only [recordShape, hf, unknown]
    rfl
  | succ m =>
    simp only [recordShape, hf, unknown]
    rfl

/-- A record with a known symbol can be shown. -/
lemma exists_recordShape (hf : s.heap.signature? p = some f)
    (hk : s.symbols.name? f.name = some n) : ∃ sh, s.recordShape p = .ok sh := by
  obtain ⟨k, m, hm⟩ := f
  have known := name_of_name? hk
  cases m with
  | zero =>
    simp only [recordShape, hf, known]
    exact ⟨_, rfl⟩
  | succ m =>
    simp only [recordShape, hf, known]
    exact ⟨_, rfl⟩

/-- Only an unknown symbol keeps the first level of a term from being shown. -/
lemma shape_error (hs : s.shape p = .error e) : e = .noSymbol ∧ ¬ s.Known := by
  rw [shape] at hs
  split at hs
  case h_4 x k hd =>
    have hr := (Heap.deref_eq_ok_iff.mp hd).2
    cases hk : s.symbols.name? k with
    | some n =>
      rw [name_of_name? hk] at hs
      cases hs
    | none =>
      rw [name_of_unknown hk] at hs
      cases hs
      exact ⟨rfl, not_known_of_sym hr hk⟩
  case h_6 x f hd =>
    have hr := (Heap.deref_eq_ok_iff.mp hd).2
    cases hk : s.symbols.name? f.name with
    | some n =>
      rw [signatureText_of_name? hk] at hs
      cases hs
    | none =>
      rw [signatureText_of_unknown hk] at hs
      cases hs
      exact ⟨rfl, not_known_of_sig hr hk⟩
  case h_7 x q hd =>
    cases hq : s.heap.signature? q with
    | none =>
      rw [recordShape, hq] at hs
      cases hs
    | some f =>
      have hf := Heap.signature?_eq_some.mp hq
      cases hk : s.symbols.name? f.name with
      | none =>
        cases (recordShape_of_unknown hq hk).symm.trans hs
        exact ⟨rfl, not_known_of_sig hf hk⟩
      | some n =>
        obtain ⟨sh, shown⟩ := exists_recordShape hq hk
        cases shown.symm.trans hs
  all_goals cases hs

/-- Only a structure without end or an unknown symbol stops the showing of terms. -/
theorem layout_error {pending : List Piece} {out : String} (hl : s.layout pending out = .error e) :
    e = .cyclic ∨ e = .noSymbol ∧ ¬ s.Known := by
  -- in all other cases the printer goes on or comes to the bound on its depth
  fun_induction layout s pending out with
  | case2 out p depth rest e' hs =>
    cases hl
    exact .inr (shape_error hs)
  | _ => grind

/-- A cell with a known symbol has a text. -/
lemma Consistent.exists_rawText (cs : s.Consistent V) (hr : s.heap.read? p = some c) :
    ∃ text, s.rawText c = .ok text := by
  cases c with
  | sym k =>
    obtain ⟨n, hk⟩ := cs.sym hr
    rw [rawText, name_of_name? hk]
    exact ⟨_, rfl⟩
  | sig f =>
    obtain ⟨n, hk⟩ := cs.sig hr
    rw [rawText, signatureText_of_name? hk]
    exact ⟨_, rfl⟩
  | _ => exact ⟨_, rfl⟩

/-- Cells in a row that have texts can be reported one after the other. -/
lemma exists_rawFrom (m : Nat) (separator out : String)
    (texts : ∀ i < m, ∃ c text, s.heap.read? (p + i) = some c ∧ s.rawText c = .ok text) :
    ∃ text, s.rawFrom p m separator out = .ok text := by
  induction m generalizing p separator out with
  | zero => exact ⟨out, rfl⟩
  | succ m ih =>
    obtain ⟨c, text, hr, ht⟩ := texts 0 m.succ_pos
    rw [Nat.add_zero] at hr
    simp only [rawFrom, read, hr, ht]
    apply ih
    intro i hi
    rw [Nat.add_assoc, Nat.add_comm 1 i]
    exact texts (i + 1) (Nat.succ_lt_succ hi)

/-- A term that was laid can be reported if its cells have texts. -/
lemma addTermLogged_of_texts {s' : Store} {root : Addr} {t : Term}
    (ha : s.addTerm t = .ok (root, s'))
    (texts : ∀ a, root ≤ a → a < s'.heap.top →
      ∃ c text, s'.heap.read? a = some c ∧ s'.rawText c = .ok text) (v : Int) (log : Log) :
    ∃ log', s.addTermLogged v t log = .ok (root, log', s') := by
  obtain ⟨text, ht⟩ := exists_rawFrom (s'.heap.top - root) "" "[" fun i hi =>
    texts (root + i) (Nat.le_add_right root i) (Nat.add_lt_of_lt_sub' hi)
  have hr : s'.renderRaw root s'.heap.top = .ok (text ++ "]") := by
    rw [renderRaw, ht]
    rfl
  simp only [addTermLogged, ha, Bind.bind, Except.bind, hr]
  split
  · exact ⟨_, rfl⟩
  · exact ⟨_, rfl⟩

/-- A term that was laid onto a consistent heap can be reported. -/
lemma exists_addTermLogged {s' : Store} {root : Addr} {t : Term} (cs : s'.Consistent V)
    (pos : 0 < root) (ha : s.addTerm t = .ok (root, s')) (v : Int) (log : Log) :
    ∃ log', s.addTermLogged v t log = .ok (root, log', s') := by
  refine addTermLogged_of_texts ha ?_ v log
  intro a le lt
  have val : s'.heap.isValid a = true :=
    Heap.isValid_iff.mpr ⟨Nat.lt_of_lt_of_le pos le, Nat.le_of_lt_succ lt⟩
  obtain ⟨c, hr⟩ := Option.isSome_iff_exists.mp ((Heap.isSome_read? s'.heap a).trans val)
  obtain ⟨text, ht⟩ := cs.exists_rawText hr
  exact ⟨c, text, hr, ht⟩

end TermHeap.Store
