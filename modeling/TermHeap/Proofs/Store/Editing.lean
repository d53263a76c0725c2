import Mathlib
import TermHeap.Proofs.Store.DisplayNames
import TermHeap.Proofs.Store.Growth

/-!
# Names in a store that is edited

A store is edited by adding and overwriting cells, by adding symbols and by naming variables, also
ones that are not there and by names that are taken (`Edit`). Each edit changes the cells, adds a
symbol or gives one name (`edit_cases`). So a variable is found for every name that some address
has, and an address without a name is shown by a name of its own. If names are given to new
variables only, the names and the addresses belong together (`Allotted`), and all addresses are
shown by different names (`varNames_apart`).
-/

namespace TermHeap

/-- What can be done to a store, cell by cell and name by name. -/
inductive Edit where
  | push (c : Cell)
  | write (p : Addr) (c : Cell)
  | bind (p target : Addr)
  | intern (name : String)
  | internSignature (name : String) (arity : Nat)
  | pushFresh
  | pushVar (name : String)
  | assignName (p : Addr) (name : String)
deriving DecidableEq

namespace Store

/-- Make one edit. -/
def edit (s : Store) : Edit → Except Fault Store
  | .push c => .ok (s.push c).2
  | .write p c => s.write p c
  | .bind p target => s.bind p target
  | .intern name => .ok (s.intern name).2
  | .internSignature name arity => (s.internSignature name arity).map (·.2)
  | .pushFresh => .ok s.pushFresh.2
  | .pushVar name => .ok (s.pushVar name).2
  | .assignName p name => .ok (s.assignName p name)

/-- Make edits one after the other. -/
def editAll (s : Store) : List Edit → Except Fault Store
  | [] => .ok s
  | e :: es =>
    match s.edit e with
    | .error f => .error f
    | .ok s => s.editAll es

variable {s s' : Store} {e : Edit} {es : List Edit} {p : Addr} {k : Symbol} {n : String} {c : Cell}

/-! ### One edit -/

/-- The edit that interns a signature makes one. -/
lemma exists_signature_of_edit {arity : Nat} (he : s.edit (.internSignature n arity) = .ok s') :
    ∃ f, s.internSignature n arity = .ok (f, s') := by
  rw [edit] at he
  cases hi : s.internSignature n arity with
  | error e =>
    rw [hi] at he
    cases he
  | ok r =>
    rw [hi] at he
    cases he
    exact ⟨r.1, rfl⟩

/-- An edit changes the cells without removing any, adds a symbol, gives the name of no variable to
a new one, or gives some name to some address. -/
lemma edit_cases (he : s.edit e = .ok s') :
    (∃ h : Heap, s.heap.size ≤ h.size ∧ s' = { s with heap := h }) ∨
    (∃ n, s' = (s.intern n).2) ∨
    (∃ n, ∃ h : Heap, s.findVar? n = none ∧ s.heap.size < h.size ∧
      s' = { s.assignName s.heap.top n with heap := h }) ∨
    ∃ p n, e = .assignName p n ∧ s' = s.assignName p n := by
  cases e with
  | push c =>
    cases he
    exact .inl ⟨s.heap.push c, by simp, rfl⟩
  | write p c => exact .inl ⟨s.heap.write p c, by simp, (write_eq_ok.mp he).2⟩
  | bind p target =>
    exact .inl ⟨s.heap.write p (s.heap.refTo target), by simp, (write_eq_ok.mp he).2⟩
  | intern n => exact .inr (.inl ⟨n, (Except.ok.inj he).symm⟩)
  | internSignature n arity =>
    obtain ⟨f, hi⟩ := exists_signature_of_edit he
    exact .inr (.inl ⟨n, (internSignature_eq_ok hi).1⟩)
  | pushFresh =>
    cases he
    exact .inl ⟨s.heap.push (.ref s.heap.top), by simp, rfl⟩
  | pushVar n =>
    cases he
    cases hf : s.findVar? n with
    | some q =>
      rw [pushVar, hf]
      exact .inl ⟨s.heap.push (s.heap.refTo q), by simp, rfl⟩
    | none =>
      rw [pushVar_new hf]
      exact .inr (.inr (.inl ⟨n, s.heap.push (.ref s.heap.top), hf, by simp, rfl⟩))
  | assignName p n => exact .inr (.inr (.inr ⟨p, n, rfl, (Except.ok.inj he).symm⟩))

/-- A store that was edited may be edited again. -/
lemma Edited.edit (ed : s.Edited) (he : s.edit e = .ok s') : s'.Edited := by
  obtain ⟨h, _, rfl⟩ | ⟨n, rfl⟩ | ⟨n, h, _, _, rfl⟩ | ⟨p, n, _, rfl⟩ := edit_cases he
  · exact .heap h ed
  · exact .intern n ed
  · exact .heap h (.assignName s.heap.top n ed)
  · exact .assignName p n ed

/-- Names and addresses belong together, and only cells have names. -/
structure Allotted (s : Store) : Prop where
  paired : s.Paired
  within : ∀ {p k}, s.vars.name? p = some k → p ≤ s.heap.size

/-- In an empty store there are no names. -/
lemma allotted_empty (capacity : Nat) : (Store.empty capacity).Allotted := by
  refine ⟨(named_empty capacity).paired, ?_⟩
  intro p k hn
  exact absurd (Variables.name?_empty.symm.trans hn) nofun

/-- An edit other than naming an address keeps names and addresses together. -/
lemma Allotted.edit (al : s.Allotted) (he : s.edit e = .ok s') (no : ∀ p n, e ≠ .assignName p n) :
    s'.Allotted := by
  obtain ⟨h, le, rfl⟩ | ⟨n, rfl⟩ | ⟨n, h, hf, lt, rfl⟩ | ⟨p, n, eq, _⟩ := edit_cases he
  · exact ⟨⟨al.paired.sound, al.paired.known⟩, fun hn => Nat.le_trans (al.within hn) le⟩
  · exact ⟨al.paired.intern n, al.within⟩
  · -- the new variable is behind all cells, so it has no name yet
    have noName : s.vars.name? s.heap.top = none := by
      cases hn : s.vars.name? s.heap.top with
      | none => rfl
      | some k => exact absurd (al.within hn) (Nat.not_succ_le_self _)
    have paired := al.paired.assignName hf noName
    refine ⟨⟨paired.sound, paired.known⟩, ?_⟩
    intro p k hn
    have hn := al.paired.sound.name?_assign.symm.trans hn
    split at hn
    · rename_i eq
      subst eq
      exact lt
    · exact Nat.le_trans (al.within hn) (Nat.le_of_lt lt)
  · exact absurd eq (no p n)

/-! ### All edits -/

/-- An edited store may be edited any number of times. -/
lemma Edited.editAll (ed : s.Edited) (he : s.editAll es = .ok s') : s'.Edited := by
  induction es generalizing s with
  | nil =>
    cases he
    exact ed
  | cons e es ih =>
    rw [Store.editAll] at he
    split at he
    · cases he
    · rename_i s₁ h₁
      exact ih (ed.edit h₁) he

/-- Edits other than naming an address keep names and addresses together, however many there are. -/
lemma Allotted.editAll (al : s.Allotted) (he : s.editAll es = .ok s')
    (no : ∀ p n, .assignName p n ∉ es) : s'.Allotted := by
  induction es generalizing s with
  | nil =>
    cases he
    exact al
  | cons e es ih =>
    rw [Store.editAll] at he
    split at he
    · cases he
    · rename_i s₁ h₁
      have no' : ∀ p n, e ≠ .assignName p n := fun p n eq => no p n (eq ▸ List.mem_cons_self)
      exact ih (al.edit h₁ no') he fun p n mem => no p n (List.mem_cons_of_mem _ mem)

/-- **The names by which variables are shown do not clash**, whatever edits were made to an empty
store. An address with a name is shown by it. An address without one is shown by the first of its
candidates `_p`, `_p_1`, `_p_2`, … that is free: there is such a candidate, no variable is found
for it, and no other address is shown by it. If no name was given but to new variables, all
addresses are shown by different names, and the variable that is found for a name is the one that
has it. -/
theorem varNames_apart (capacity : Nat) (es : List Edit)
    (made : (Store.empty capacity).editAll es = .ok s) :
    (∀ p k, s.vars.name? p = some k →
      ∃ n, s.symbols.name? k = some n ∧ s.varName p = n) ∧
    (∀ p, s.vars.name? p = none →
      (∃ n, s.varName p = candidateName p n ∧ ∀ i < n, s.findVar? (candidateName p i) ≠ none) ∧
      s.findVar? (s.varName p) = none ∧ ∀ q, q ≠ p → s.varName q ≠ s.varName p) ∧
    ((∀ p n, .assignName p n ∉ es) →
      Function.Injective s.varName ∧
      ∀ n p, s.findVar? n = some p ↔
        ∃ k, s.vars.name? p = some k ∧ s.symbols.name? k = some n) := by
  have ed := (Edited.fresh capacity).editAll made
  refine ⟨?_, ?_, ?_⟩
  · intro p k hn
    obtain ⟨n, hk⟩ := ed.known.2 hn
    exact ⟨n, hk, varName_of_name? hn hk⟩
  · intro p hn
    obtain ⟨n, eq, free, taken⟩ := varName_of_no_name hn
    refine ⟨⟨n, eq, taken⟩, eq ▸ free, ?_⟩
    intro q ne
    exact ed.registered.varName_ne hn ne
  · intro no
    have paired := ((allotted_empty capacity).editAll made no).paired
    exact ⟨paired.varName_injective, fun n p => paired.findVar?_eq_some_iff⟩

/-- The address 1 holds no variable, but variables have the names `_1` and `_1_1`, which were given
before and after a binding. -/
theorem varNames_apart_takenNames :
    ∃ s, (Store.empty 8).editAll [.push (.int 3), .pushVar "_1", .pushFresh, .bind 2 3,
        .pushVar "_1_1", .pushVar "_1"] = .ok s ∧
      s.vars.name? 1 = none ∧ s.varName 1 = "_1_2" ∧ s.findVar? "_1_2" = none ∧
      (∀ q, q ≠ 1 → s.varName q ≠ "_1_2") ∧ Function.Injective s.varName ∧
      s.findVar? "_1_1" = some 4 := by
  have values : ((Store.empty 8).editAll [.push (.int 3), .pushVar "_1", .pushFresh, .bind 2 3,
      .pushVar "_1_1", .pushVar "_1"]).map (fun s =>
        (s.vars.name? 1, s.freeName 1 0 s.symbols.size, s.vars.name? 4, s.symbols.name? ⟨1⟩)) =
      .ok (none, "_1_2", some ⟨1⟩, some "_1_1") := by cbv
  cases hs : (Store.empty 8).editAll [.push (.int 3), .pushVar "_1", .pushFresh, .bind 2 3,
      .pushVar "_1_1", .pushVar "_1"] with
  | error f =>
    rw [hs] at values
    cases values
  | ok s =>
    rw [hs] at values
    obtain ⟨unnamed, rest⟩ := Prod.mk.inj (Except.ok.inj values)
    obtain ⟨made, rest⟩ := Prod.mk.inj rest
    obtain ⟨named, name⟩ := Prod.mk.inj rest
    obtain ⟨_, free, apart⟩ := varNames_apart 8 _ hs
    obtain ⟨_, notFound, differ⟩ := free 1 unnamed
    obtain ⟨inj, found⟩ := apart (by simp)
    have shown : s.varName 1 = "_1_2" := (varName_eq_freeName unnamed).trans made
    rw [shown] at notFound differ
    exact ⟨s, rfl, unnamed, shown, notFound, differ, inj, (found _ _).mpr ⟨⟨1⟩, named, name⟩⟩

end Store
end TermHeap
