import TermHeap.Proofs.HashTable.Lookup
import TermHeap.Proofs.Heap.References
import TermHeap.Store.Display

/-!
# Symbols and named variables

A symbol keeps its name while the table grows (`Symbols.Extends`). The two directions of the naming
of variables are inverse to each other, and only reference cells have names of known symbols
(`Store.Named`), so that the variable found for a name is shown by this name (`Named.varName_eq`).
-/

namespace TermHeap

/-! ### Symbols -/

namespace Symbols

variable {s s' s'' : Symbols} {k : Symbol} {n : String}

/-- A symbol that is found for a name has that name. -/
lemma name?_of_find? (hf : s.find? n = some k) : s.name? k = some n := by
  obtain ⟨i, hi, rfl⟩ := Option.map_eq_some_iff.mp hf
  obtain ⟨lt, eq, _⟩ := Array.findIdx?_eq_some_iff_getElem.mp hi
  rw [name?, Array.getElem?_eq_getElem lt]
  simpa using eq

/-- A symbol is named where it has a name. -/
lemma name_eq_ok : s.name k = .ok n ↔ s.name? k = some n := by
  rw [name]
  split <;> simp_all

/-- A symbol is found for one name at most. -/
lemma name_unique {m : String} (hm : s.find? m = some k) (hn : s.find? n = some k) : m = n :=
  Option.some.inj ((name?_of_find? hm).symm.trans (name?_of_find? hn))

/-- The symbols with a name are the positions in the table. -/
lemma exists_name?_iff : (∃ n, s.name? k = some n) ↔ k.index < s.size := by
  rw [← Option.isSome_iff_exists, name?, isSome_getElem?]
  rfl

/-- All symbols of a table have the same names in another, and are found there. -/
structure Extends (s s' : Symbols) : Prop where
  name : ∀ {k n}, s.name? k = some n → s'.name? k = some n
  find : ∀ {k n}, s.find? n = some k → s'.find? n = some k

/-- A table keeps the symbols that it has. -/
lemma Extends.refl (s : Symbols) : s.Extends s := ⟨id, id⟩

/-- What is kept twice is kept. -/
lemma Extends.trans (ex : s.Extends s') (ex' : s'.Extends s'') : s.Extends s'' :=
  ⟨fun hk => ex'.name (ex.name hk), fun hf => ex'.find (ex.find hf)⟩

/-- Interning a name keeps all symbols. -/
lemma extends_intern (s : Symbols) (n : String) : s.Extends (s.intern n).2 := by
  rw [intern]
  split
  · exact .refl s
  · refine ⟨?_, ?_⟩
    · intro k m hk
      have lt : k.index < s.names.size := exists_name?_iff.mp ⟨m, hk⟩
      rw [name?] at hk
      rw [name?, Array.getElem?_push, if_neg (Nat.ne_of_lt lt), hk]
    · intro k m hf
      obtain ⟨i, hi, rfl⟩ := Option.map_eq_some_iff.mp hf
      rw [find?, Array.findIdx?_push, hi]
      rfl

/-- A name that was interned is found at its symbol. -/
lemma find?_intern (s : Symbols) (n : String) : (s.intern n).2.find? n = some (s.intern n).1 := by
  rw [intern]
  split
  · assumption
  · rename_i hf
    have none : s.names.findIdx? (· == n) = none := Option.map_eq_none_iff.mp hf
    simp [find?, Array.findIdx?_push, none, size]

end Symbols

/-! ### Variables -/

namespace Variables

variable {v : Variables} {k k' : Symbol} {p p' : Addr}

/-- Both tables are sound, and each undoes the other. -/
structure Sound (v : Variables) : Prop where
  byName : v.byName.Sound
  byAddr : v.byAddr.Sound
  inverse : ∀ {k p}, v.addr? k = some p ↔ v.name? p = some k

/-- A name leads to the address that was given it last. -/
lemma Sound.addr?_assign (sd : v.Sound) :
    (v.assign p k).addr? k' = if k' = k then some p else v.addr? k' := sd.byName.get?_put

/-- An address has the name that it was given last. -/
lemma Sound.name?_assign (sd : v.Sound) :
    (v.assign p k).name? p' = if p' = p then some k else v.name? p' := sd.byAddr.get?_put

@[simp] lemma addr?_empty : empty.addr? k = none := HashTable.get?_empty ..

@[simp] lemma name?_empty : empty.name? p = none := HashTable.get?_empty ..

/-- Empty tables are sound. -/
lemma sound_empty : Variables.empty.Sound := by
  refine ⟨HashTable.sound_emptyBuckets _ _ _ _, HashTable.sound_emptyBuckets _ _ _ _, ?_⟩
  intro k p
  rw [addr?_empty, name?_empty]
  simp

/-- A new name may be given to an address without one. -/
lemma Sound.assign (sd : v.Sound) (newName : v.addr? k = none) (newAddr : v.name? p = none) :
    (v.assign p k).Sound := by
  refine ⟨sd.byName.put, sd.byAddr.put, ?_⟩
  intro k' p'
  rw [sd.addr?_assign, sd.name?_assign]
  by_cases hk : k' = k
  · by_cases hp : p' = p
    · simp [hk, hp]
    · subst hk
      rw [if_pos rfl, if_neg hp, ← sd.inverse, newName]
      simpa using Ne.symm hp
  · by_cases hp : p' = p
    · subst hp
      rw [if_neg hk, if_pos rfl, sd.inverse, newAddr]
      simpa using Ne.symm hk
    · rw [if_neg hk, if_neg hp, sd.inverse]

end Variables

/-! ### Stores -/

namespace Store

variable {s : Store} {k : Symbol} {n : String} {p q : Addr}

/-- The names that addresses have are known symbols, and a variable is found for each of them. -/
def Registered (s : Store) : Prop :=
  ∀ p k, s.vars.name? p = some k → ∃ n q, s.symbols.find? n = some k ∧ s.vars.addr? k = some q

/-- Names and addresses of variables belong together, and the names are known symbols. -/
structure Paired (s : Store) : Prop where
  sound : s.vars.Sound
  known : ∀ {k p}, s.vars.name? p = some k → ∃ n, s.symbols.find? n = some k

/-- Names and addresses of variables belong together, the names are known symbols, and the
addresses hold references. -/
structure Named (s : Store) : Prop where
  sound : s.vars.Sound
  known : ∀ {k p}, s.vars.name? p = some k → ∃ n, s.symbols.find? n = some k
  cell : ∀ {k p}, s.vars.name? p = some k → ∃ q, s.heap.read? p = some (.ref q)

/-- Names and addresses belong together. -/
lemma Named.paired (nm : s.Named) : s.Paired := ⟨nm.sound, nm.known⟩

/-- In an empty store no address has a name. -/
lemma named_empty (capacity : Nat) : (Store.empty capacity).Named := by
  refine ⟨Variables.sound_empty, ?_, ?_⟩
  · intro k p hn
    exact absurd (Variables.name?_empty.symm.trans hn) nofun
  · intro k p hn
    exact absurd (Variables.name?_empty.symm.trans hn) nofun

/-- The variable of a name is the address of its symbol. -/
lemma findVar?_eq_some :
    s.findVar? n = some p ↔ ∃ k, s.symbols.find? n = some k ∧ s.vars.addr? k = some p := by
  rw [findVar?]
  split <;> simp_all

/-- No variable is found in an empty store. -/
lemma findVar?_empty (capacity : Nat) (n : String) : (Store.empty capacity).findVar? n = none := by
  have none : (Store.empty capacity).symbols.find? n = none := by
    simp [Symbols.find?, Store.empty, Symbols.empty]
  rw [findVar?, none]

namespace Paired

/-- A variable is found for each name. -/
lemma registered (pr : s.Paired) : s.Registered := by
  intro p k hn
  obtain ⟨n, hk⟩ := pr.known hn
  exact ⟨n, p, hk, pr.sound.inverse.mpr hn⟩

/-- Adding a symbol names no variable. -/
lemma intern (pr : s.Paired) (n : String) : (s.intern n).2.Paired := by
  refine ⟨pr.sound, ?_⟩
  intro k p hn
  obtain ⟨m, hm⟩ := pr.known hn
  exact ⟨m, (s.symbols.extends_intern n).find hm⟩

/-- The symbol of a name without a variable has no address. -/
lemma addr?_intern_eq_none (pr : s.Paired) (hf : s.findVar? n = none) :
    s.vars.addr? (s.symbols.intern n).1 = none := by
  cases ha : s.vars.addr? (s.symbols.intern n).1 with
  | none => rfl
  | some p =>
    obtain ⟨m, hm⟩ := pr.known (pr.sound.inverse.mp ha)
    obtain rfl := Symbols.name_unique ((s.symbols.extends_intern n).find hm)
      (s.symbols.find?_intern n)
    rw [findVar?_eq_some.mpr ⟨_, hm, ha⟩] at hf
    cases hf

/-- A name without a variable may be given to an address without a name. -/
lemma assignName (pr : s.Paired) (hf : s.findVar? n = none) (noName : s.vars.name? p = none) :
    (s.assignName p n).Paired := by
  refine ⟨pr.sound.assign (pr.addr?_intern_eq_none hf) noName, ?_⟩
  intro k q hn
  have hn := pr.sound.name?_assign.symm.trans hn
  split at hn
  · obtain rfl := Option.some.inj hn
    exact ⟨n, s.symbols.find?_intern n⟩
  · exact (pr.intern n).known hn

end Paired

/-- The variable of a name is a reference. -/
lemma Named.findVar?_cell (nm : s.Named) (hf : s.findVar? n = some p) :
    ∃ q, s.heap.read? p = some (.ref q) := by
  obtain ⟨k, _, ha⟩ := findVar?_eq_some.mp hf
  exact nm.cell (nm.sound.inverse.mp ha)

-- An equation of functions on purpose: at a given address it would be checked by computing a hash.
/-- The name by which an address is shown, as the definition has it. -/
lemma varName_def : varName = fun s p =>
    match s.vars.name? p with
    | some k => (s.symbols.name? k).getD ""
    | none => s.freeName p 0 s.symbols.size := rfl

/-- An address with a name is shown by it. -/
lemma varName_of_name? (hn : s.vars.name? p = some k) (hk : s.symbols.name? k = some n) :
    s.varName p = n := by
  rw [varName_def]
  simp only [hn, hk, Option.getD_some]

/-- The variable found for a name is shown by this name. -/
theorem Named.varName_eq (nm : s.Named) (hf : s.findVar? n = some p) : s.varName p = n := by
  obtain ⟨k, hk, ha⟩ := findVar?_eq_some.mp hf
  exact varName_of_name? (nm.sound.inverse.mp ha) (Symbols.name?_of_find? hk)

/-- An address without a cell has no name. -/
lemma Named.name?_eq_none (nm : s.Named) (bad : s.heap.isValid p ≠ true) :
    s.vars.name? p = none := by
  cases hn : s.vars.name? p with
  | none => rfl
  | some k =>
    obtain ⟨q, hr⟩ := nm.cell hn
    exact absurd (Heap.isValid_of_read? hr) bad

/-! ### Stores under arbitrary changes -/

/-- The stores that an empty one can become when symbols are added, any addresses are given any
names and the heap is changed in whatever way. -/
inductive Edited : Store → Prop where
  | fresh (capacity : Nat) : Edited (.empty capacity)
  | heap {s : Store} (h : Heap) : Edited s → Edited { s with heap := h }
  | intern {s : Store} (n : String) : Edited s → Edited (s.intern n).2
  | assignName {s : Store} (p : Addr) (n : String) : Edited s → Edited (s.assignName p n)

/-- However a store was edited, its table of names is sound. -/
lemma Edited.sound_byName (ed : s.Edited) : s.vars.byName.Sound := by
  induction ed with
  | fresh capacity => exact HashTable.sound_emptyBuckets _ _ _ _
  | heap h _ ih => exact ih
  | intern n _ ih => exact ih
  | assignName p n _ ih => exact ih.put

/-- However a store was edited, its table of addresses is sound. -/
lemma Edited.sound_byAddr (ed : s.Edited) : s.vars.byAddr.Sound := by
  induction ed with
  | fresh capacity => exact HashTable.sound_emptyBuckets _ _ _ _
  | heap h _ ih => exact ih
  | intern n _ ih => exact ih
  | assignName p n _ ih => exact ih.put

/-- However a store was edited, a variable is found for every name that some address has, be it
another variable. -/
theorem Edited.registered (ed : s.Edited) : s.Registered := by
  induction ed with
  | fresh capacity =>
    intro p k hn
    exact absurd (Variables.name?_empty.symm.trans hn) nofun
  | heap h _ ih => exact ih
  | @intern s n _ ih =>
    intro p k hn
    obtain ⟨m, q, hm, ha⟩ := ih p k hn
    exact ⟨m, q, (s.symbols.extends_intern n).find hm, ha⟩
  | @assignName s q n ed ih =>
    have addr : ∀ k, (s.assignName q n).vars.addr? k =
        if k = (s.symbols.intern n).1 then some q else s.vars.addr? k :=
      fun _ => ed.sound_byName.get?_put
    intro p k hn
    have hn := ed.sound_byAddr.get?_put.symm.trans hn
    rw [addr]
    split at hn
    · obtain rfl := Option.some.inj hn
      exact ⟨n, q, s.symbols.find?_intern n, if_pos rfl⟩
    · obtain ⟨m, r, hm, ha⟩ := ih p k hn
      have hm := (s.symbols.extends_intern n).find hm
      split
      · exact ⟨m, q, hm, rfl⟩
      · exact ⟨m, r, hm, ha⟩

/-- The names of variables are symbols that have a name. -/
theorem Edited.known (ed : s.Edited) :
    s.vars.byAddr.Sound ∧ ∀ {p k}, s.vars.name? p = some k → ∃ n, s.symbols.name? k = some n := by
  refine ⟨ed.sound_byAddr, ?_⟩
  intro p k hn
  obtain ⟨n, _, hk, _⟩ := ed.registered p k hn
  exact ⟨n, Symbols.name?_of_find? hk⟩

end Store
end TermHeap
