import Mathlib.Data.Finset.Card
import TermHeap.Proofs.Store.Names

/-!
# The names under which variables are shown

A variable without a name is shown by the first of its candidates that names no variable. There are
more candidates than symbols and they are all different, so there is such a candidate
(`freeName_spec`). Candidates for different addresses differ, so it is shown by a name of its own
(`Registered.varName_ne`). Where names and addresses belong together, no two addresses are shown by
the same name (`Paired.varName_injective`).
-/

namespace TermHeap.Store

variable {s : Store} {k : Symbol} {p q : Addr} {m n : Nat}

/-! ### Candidates -/

/-- What follows the address in the `n`-th candidate. -/
def suffix : Nat → List Char
  | 0 => []
  | n + 1 => '_' :: Nat.toDigits 10 (n + 1)

/-- A candidate is an underscore, the address and a suffix. -/
lemma toList_candidateName (p : Addr) (n : Nat) :
    (candidateName p n).toList = '_' :: (Nat.toDigits 10 p ++ suffix n) := by
  rw [candidateName]
  cases n with
  | zero => simp [suffix]
  | succ n => simp [suffix]

/-- Addresses are written with digits. -/
lemma isDigit_of_mem_digits {c : Char} (mem : c ∈ Nat.toDigits 10 n) : c.isDigit = true :=
  Nat.isDigit_of_mem_toDigits (by decide) (by decide) mem

/-- Numbers that are written alike are the same. -/
lemma toDigits_inj (e : Nat.toDigits 10 m = Nat.toDigits 10 n) : m = n := by
  rw [← Nat.ofDigitChars_ten_toDigits (n := m), e, Nat.ofDigitChars_ten_toDigits]

/-- Suffixes that are written alike are the same. -/
lemma suffix_inj (e : suffix m = suffix n) : m = n := by
  cases m with
  | zero =>
    cases n with
    | zero => rfl
    | succ n => cases e
  | succ m =>
    cases n with
    | zero => cases e
    | succ n => exact toDigits_inj (List.cons.inj e).2

/-- The digits of the address end where the suffix begins. -/
lemma takeWhile_digits (p n : Nat) :
    (Nat.toDigits 10 p ++ suffix n).takeWhile Char.isDigit = Nat.toDigits 10 p := by
  rw [List.takeWhile_append_of_pos fun c mem => isDigit_of_mem_digits mem]
  cases n with
  | zero => exact List.append_nil _
  | succ n => exact List.append_nil _

/-- Candidates for different addresses differ, and so do the candidates for one address. -/
theorem candidateName_inj (e : candidateName p m = candidateName q n) : p = q ∧ m = n := by
  have e := congrArg String.toList e
  rw [toList_candidateName, toList_candidateName] at e
  have e := (List.cons.inj e).2
  have digits : Nat.toDigits 10 p = Nat.toDigits 10 q := by
    rw [← takeWhile_digits p m, e, takeWhile_digits]
  rw [digits] at e
  exact ⟨toDigits_inj digits, suffix_inj (List.append_cancel_left e)⟩

/-! ### The first free candidate -/

/-- One of the candidates names no variable: there are more of them than symbols. -/
lemma exists_free (s : Store) (p : Addr) :
    ∃ n ≤ s.symbols.size, s.findVar? (candidateName p n) = none := by
  by_contra taken
  push Not at taken
  have symbol : ∀ n ≤ s.symbols.size, ∃ k, s.symbols.find? (candidateName p n) = some k := by
    intro n le
    obtain ⟨q, hf⟩ := Option.ne_none_iff_exists'.mp (taken n le)
    obtain ⟨k, hk, _⟩ := findVar?_eq_some.mp hf
    exact ⟨k, hk⟩
  choose! symbol found using symbol
  -- of more candidates than symbols two would have the same symbol
  obtain ⟨i, hi, j, hj, ne, e⟩ := Finset.exists_ne_map_eq_of_card_lt_of_maps_to
    (s := Finset.range (s.symbols.size + 1)) (t := Finset.range s.symbols.size)
    (f := fun n => (symbol n).index) (by simp) (by
      intro n mem
      have le := Nat.le_of_lt_succ (Finset.mem_range.mp mem)
      exact Finset.mem_range.mpr
        (Symbols.exists_name?_iff.mp ⟨_, Symbols.name?_of_find? (found n le)⟩))
  have hi := found i (Nat.le_of_lt_succ (Finset.mem_range.mp hi))
  have hj := found j (Nat.le_of_lt_succ (Finset.mem_range.mp hj))
  have same : symbol i = symbol j := congrArg Symbol.mk e
  rw [same] at hi
  exact ne (candidateName_inj (Symbols.name_unique hi hj)).2

/-- Trying candidates one after the other finds the first one that is free. -/
lemma freeName_eq {tries : Nat} (free : s.findVar? (candidateName p n) = none) (le : m ≤ n)
    (enough : n ≤ m + tries) (taken : ∀ i, m ≤ i → i < n → s.findVar? (candidateName p i) ≠ none) :
    s.freeName p m tries = candidateName p n := by
  induction tries generalizing m with
  | zero =>
    obtain rfl := Nat.le_antisymm le enough
    rfl
  | succ tries ih =>
    rw [freeName]
    by_cases e : m = n
    · subst e
      rw [free]
      rfl
    · have lt := Nat.lt_of_le_of_ne le e
      rw [if_pos (Option.isSome_iff_ne_none.mpr (taken m (Nat.le_refl m) lt))]
      apply ih lt (by omega)
      intro i hi
      exact taken i (Nat.le_of_succ_le hi)

/-- The name found for a variable without a name is the first of its candidates that is free. -/
theorem freeName_spec (s : Store) (p : Addr) :
    ∃ n, s.freeName p 0 s.symbols.size = candidateName p n ∧
      s.findVar? (candidateName p n) = none ∧
      ∀ i < n, s.findVar? (candidateName p i) ≠ none := by
  obtain ⟨m, le, free⟩ := s.exists_free p
  have some : ∃ n, s.findVar? (candidateName p n) = none := ⟨m, free⟩
  have least := Nat.find_min' some free
  refine ⟨Nat.find some, ?_, Nat.find_spec some, fun i => Nat.find_min some⟩
  apply freeName_eq (Nat.find_spec some) (Nat.zero_le _) (by omega)
  intro i _
  exact Nat.find_min some

/-- A variable without a name is shown by a free candidate. -/
lemma varName_eq_freeName (hn : s.vars.name? p = none) :
    s.varName p = s.freeName p 0 s.symbols.size := by
  rw [varName_def]
  simp only [hn]

/-- A variable without a name is shown by the first of its candidates that names no variable. -/
lemma varName_of_no_name (hn : s.vars.name? p = none) :
    ∃ n, s.varName p = candidateName p n ∧ s.findVar? (candidateName p n) = none ∧
      ∀ i < n, s.findVar? (candidateName p i) ≠ none := by
  obtain ⟨n, hf, free, taken⟩ := s.freeName_spec p
  exact ⟨n, (varName_eq_freeName hn).trans hf, free, taken⟩

namespace Registered

/-- A variable is found by the name under which an address with a name is shown. -/
lemma exists_findVar?_varName (rg : s.Registered) (hn : s.vars.name? p = some k) :
    ∃ q, s.findVar? (s.varName p) = some q := by
  obtain ⟨n, q, hk, ha⟩ := rg p k hn
  rw [varName_of_name? hn (Symbols.name?_of_find? hk)]
  exact ⟨q, findVar?_eq_some.mpr ⟨k, hk, ha⟩⟩

/-- No other address is shown by the name under which an address without a name is shown. -/
theorem varName_ne (rg : s.Registered) (hn : s.vars.name? p = none) (ne : q ≠ p) :
    s.varName q ≠ s.varName p := by
  intro e
  obtain ⟨m, ep, free, _⟩ := varName_of_no_name hn
  cases hq : s.vars.name? q with
  | some k =>
    obtain ⟨r, fq⟩ := rg.exists_findVar?_varName hq
    rw [e, ep, free] at fq
    cases fq
  | none =>
    obtain ⟨n, eq, _⟩ := varName_of_no_name hq
    rw [ep, eq] at e
    exact ne (candidateName_inj e).1

end Registered

namespace Paired

/-- A variable with a name is found by the name under which it is shown. -/
lemma findVar?_varName (pr : s.Paired) (hn : s.vars.name? p = some k) :
    s.findVar? (s.varName p) = some p := by
  obtain ⟨n, hk⟩ := pr.known hn
  rw [varName_of_name? hn (Symbols.name?_of_find? hk)]
  exact findVar?_eq_some.mpr ⟨k, hk, pr.sound.inverse.mpr hn⟩

/-- No two addresses are shown by the same name. -/
theorem varName_injective (pr : s.Paired) : Function.Injective s.varName := by
  intro p q e
  by_contra ne
  cases hp : s.vars.name? p with
  | none => exact pr.registered.varName_ne hp (Ne.symm ne) e.symm
  | some k =>
    cases hq : s.vars.name? q with
    | none => exact pr.registered.varName_ne hq ne e
    | some l =>
      have fp := pr.findVar?_varName hp
      rw [e, pr.findVar?_varName hq] at fp
      exact ne (Option.some.inj fp).symm

/-- A variable is found for a name exactly if it has this name. -/
theorem findVar?_eq_some_iff (pr : s.Paired) {n : String} :
    s.findVar? n = some p ↔ ∃ k, s.vars.name? p = some k ∧ s.symbols.name? k = some n := by
  rw [findVar?_eq_some]
  constructor
  · rintro ⟨k, hk, ha⟩
    exact ⟨k, pr.sound.inverse.mp ha, Symbols.name?_of_find? hk⟩
  · rintro ⟨k, hn, hk⟩
    obtain ⟨m, hm⟩ := pr.known hn
    obtain rfl := Option.some.inj (hk.symm.trans (Symbols.name?_of_find? hm))
    exact ⟨k, hm, pr.sound.inverse.mpr hn⟩

end Paired

/-- No two addresses are shown by the same name. -/
theorem Named.varName_injective (nm : s.Named) : Function.Injective s.varName :=
  nm.paired.varName_injective

end TermHeap.Store
