import TermHeap.Term.Basic

/-!
# Equality of terms

Two terms are compared with a worklist of pairs, so terms of any depth can be compared. The
comparison stops at the first pair that differs.
-/

namespace TermHeap.Term

/-- The number of nodes on the left of a worklist of pairs. -/
def leftSize : List (Term × Term) → Nat
  | [] => 0
  | (a, _) :: rest => a.size + leftSize rest

/-- Pairing up the arguments of two records brings in no more nodes than the first one has. -/
theorem leftSize_zip_append (as bs : List Term) (rest : List (Term × Term)) :
    leftSize (as.zip bs ++ rest) ≤ sizeAll as + leftSize rest := by
  induction as generalizing bs with
  | nil => simp [sizeAll]
  | cons a as ih =>
    cases bs with
    | nil => simp
    | cons b bs =>
      have := ih bs
      simp only [List.zip_cons_cons, List.cons_append, leftSize, sizeAll]
      omega

/-- Whether the terms of each pair are equal. -/
def sameAll (pending : List (Term × Term)) : Bool :=
  match pending with
  | [] => true
  | (.int x, .int y) :: rest => if x = y then sameAll rest else false
  | (.sym x, .sym y) :: rest => if x = y then sameAll rest else false
  | (.var x, .var y) :: rest => if x = y then sameAll rest else false
  | (.nil, .nil) :: rest => sameAll rest
  | (.cons a as, .cons b bs) :: rest => sameAll ((a, b) :: (as, bs) :: rest)
  | (.record f as, .record g bs) :: rest =>
    if f = g ∧ as.length = bs.length then sameAll (as.zip bs ++ rest) else false
  | _ :: _ => false
termination_by leftSize pending
decreasing_by
  all_goals simp only [leftSize, size]
  all_goals try have := leftSize_zip_append as bs rest
  all_goals omega

/-- Whether two terms are the same tree. All anonymous variables are alike. -/
def same (a b : Term) : Bool := sameAll [(a, b)]

instance : BEq Term := ⟨same⟩

end TermHeap.Term
