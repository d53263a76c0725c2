import Mathlib.Data.List.Forall2
import TermHeap.Term.Equality

/-!
# Equality of terms is decided by the worklist

The comparison of a worklist of pairs ends with whether the two terms of each pair are the same tree
(`sameAll_iff`). Being the same tree is said of the nodes: at every position the two terms have
nodes of the same kind with the same integer or name and equally many arguments (`eq_iff_labels`).
-/

namespace TermHeap.Term

/-- What a node says by itself, without its arguments. -/
inductive Label where
  | int (value : Int32)
  | sym (name : String)
  /-- A variable, anonymous if the name is empty. -/
  | var (name : String)
  | record (name : String) (arity : Nat)
  | cons
  | nil
deriving DecidableEq, Repr

/-- The label of the topmost node. -/
def label : Term → Label
  | int value => .int value
  | sym name => .sym name
  | var name => .var name
  | record name args => .record name args.length
  | cons _ _ => .cons
  | nil => .nil

variable {a b : Term} {as bs : List Term} {f g : String} {pending : List (Term × Term)}

/-! ### The worklist -/

/-- Rows of the same length are the same if they are so entry by entry. -/
lemma forall_mem_zip (len : as.length = bs.length) :
    (∀ p ∈ as.zip bs, p.1 = p.2) ↔ as = bs := by
  induction as generalizing bs with
  | nil =>
    obtain rfl := List.eq_nil_of_length_eq_zero len.symm
    simp
  | cons a as ih =>
    cases bs with
    | nil => cases len
    | cons b bs =>
      rw [List.zip_cons_cons, List.forall_mem_cons, ih (Nat.succ.inj len), List.cons.injEq]

/-- The comparison ends, and tells whether the terms of every pair are the same. -/
theorem sameAll_iff (pending : List (Term × Term)) :
    sameAll pending = true ↔ ∀ p ∈ pending, p.1 = p.2 := by
  fun_induction sameAll pending with
  | case1 => simp
  | case2 value rest ih => simp [ih]
  | case4 name rest ih => simp [ih]
  | case6 name rest ih => simp [ih]
  | case8 rest ih => simp [ih]
  | case3 x y rest ne => simp [ne]
  | case5 x y rest ne => simp [ne]
  | case7 x y rest ne => simp [ne]
  | case9 a as b bs rest ih =>
    rw [ih, List.forall_mem_cons, List.forall_mem_cons, List.forall_mem_cons, cons.injEq, and_assoc]
  | case10 f as g bs rest alike ih =>
    obtain ⟨rfl, len⟩ := alike
    rw [ih, List.forall_mem_append, forall_mem_zip len, List.forall_mem_cons, record.injEq]
    simp only [true_and]
  | case11 f as g bs rest unlike =>
    refine ⟨nofun, fun all => absurd ?_ unlike⟩
    obtain ⟨name, args⟩ := record.inj (all _ List.mem_cons_self)
    exact ⟨name, congrArg List.length args⟩
  | case12 p rest int sym var nil cons record =>
    -- terms of different kinds
    refine ⟨nofun, fun all => ?_⟩
    obtain ⟨a, b⟩ := p
    obtain rfl : a = b := all _ List.mem_cons_self
    cases a with
    | int value => exact absurd rfl (int value value)
    | sym name => exact absurd rfl (sym name name)
    | var name => exact absurd rfl (var name name)
    | record name args => exact absurd rfl (record name args name args)
    | cons car cdr => exact absurd rfl (cons car cdr car cdr)
    | nil => exact absurd rfl nil

/-- Two terms are equal exactly if they are the same. -/
theorem beq_iff (a b : Term) : (a == b) = true ↔ a = b := by
  refine (sameAll_iff [(a, b)]).trans ?_
  rw [List.forall_mem_singleton]

/-! ### Nodes -/

/-- Terms with the same label and arguments are the same. -/
lemma eq_of_label (el : a.label = b.label) (ea : a.args = b.args) : a = b := by
  cases a <;> cases b <;> simp_all [label, args]

/-- A label tells the number of arguments. -/
lemma length_args_of_label (el : a.label = b.label) : a.args.length = b.args.length := by
  cases a <;> cases b <;> simp_all [label, args]

/-- A term is no larger than a row that it is in. -/
lemma size_le_sizeAll (mem : a ∈ as) : a.size ≤ sizeAll as := by
  induction as with
  | nil => cases mem
  | cons b as ih =>
    rw [sizeAll]
    rcases List.mem_cons.mp mem with rfl | mem
    · exact Nat.le_add_right _ _
    · exact Nat.le_add_left_of_le (ih mem)

/-- An argument is smaller than its term. -/
lemma size_lt_of_mem_args (mem : b ∈ a.args) : b.size < a.size :=
  Nat.lt_of_le_of_lt (size_le_sizeAll mem) a.sizeAll_args_lt

/-- Terms are the same tree if they have the same nodes at the same positions. -/
theorem eq_iff_labels :
    a = b ↔ ∀ path, (a.at? path).map label = (b.at? path).map label := by
  refine ⟨fun e path => e ▸ rfl, fun h => ?_⟩
  -- on the size of the first term, of which the arguments have less
  induction hs : a.size using Nat.strongRecOn generalizing a b with
  | ind n ih =>
    have root : a.label = b.label := Option.some.inj (h [])
    apply eq_of_label root
    apply List.ext_getElem (length_args_of_label root)
    intro i hi hi'
    apply ih _ (hs ▸ size_lt_of_mem_args (List.getElem_mem hi)) _ rfl
    intro path
    rw [← at?_cons hi, ← at?_cons hi']
    exact h (i :: path)

/-- **Terms are equal exactly if they are the same tree**: if at every position both have a node of
the same kind, with the same integer or name and equally many arguments, where all anonymous
variables have the empty name. So equality is an equivalence, and a record, list pair or list equals
another exactly if its parts do. -/
theorem beq_exact :
    (∀ a b : Term, (a == b) = true ↔
      ∀ path, (a.at? path).map label = (b.at? path).map label) ∧
    (∀ a b : Term, (a == b) = true ↔ a = b) ∧
    Equivalence (fun a b : Term => (a == b) = true) ∧
    (∀ f g as bs, (record f as == record g bs) = true ↔
      f = g ∧ List.Forall₂ (fun a b : Term => (a == b) = true) as bs) ∧
    (∀ a b as bs, (cons a as == cons b bs) = true ↔ (a == b) = true ∧ (as == bs) = true) ∧
    ∀ as bs t u, List.Forall₂ (fun a b : Term => (a == b) = true) as bs → (t == u) = true →
      (list as t == list bs u) = true := by
  have same : (fun a b : Term => (a == b) = true) = Eq := by
    funext a b
    exact propext (beq_iff a b)
  refine ⟨fun a b => (beq_iff a b).trans eq_iff_labels, beq_iff, same ▸ eq_equivalence, ?_, ?_, ?_⟩
  · intro f g as bs
    rw [beq_iff, record.injEq, same, List.forall₂_eq_eq_eq]
  · intro a b as bs
    rw [beq_iff, beq_iff, beq_iff, cons.injEq]
  · intro as bs t u elements tail
    rw [same, List.forall₂_eq_eq_eq] at elements
    rw [beq_iff] at tail ⊢
    rw [elements, tail]

end TermHeap.Term
