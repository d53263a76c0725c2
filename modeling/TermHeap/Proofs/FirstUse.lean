import Mathlib.Data.List.Nodup
import Mathlib.Data.List.Induction

/-!
# The order of first use

Of equal entries of a list `List.eraseDups` keeps the one that comes first. So the entries that are
kept are different, and they stand in the order in which they first occur (`pairwise_eraseDups`). An
entry that is added at the end is kept if it is new (`eraseDups_concat`).
-/

namespace TermHeap

variable {α : Type} [BEq α] [LawfulBEq α]

/-- An entry at the end is kept if it is new. -/
lemma eraseDups_concat (l : List α) (a : α) :
    (l ++ [a]).eraseDups = if a ∈ l then l.eraseDups else l.eraseDups ++ [a] := by
  rw [List.eraseDups_append]
  by_cases old : a ∈ l
  · have none : [a].removeAll l = [] := by simpa [List.removeAll] using old
    rw [none, if_pos old, List.eraseDups_nil, List.append_nil]
  · have one : [a].removeAll l = [a] := by simpa [List.removeAll] using old
    rw [one, if_neg old, List.eraseDups_cons, List.filter_nil, List.eraseDups_nil]

/-- Those that stand earlier occur first at an earlier place. -/
lemma pairwise_eraseDups (l : List α) : l.eraseDups.Pairwise fun a b => l.idxOf a < l.idxOf b := by
  induction l using List.reverseRecOn with
  | nil => exact .nil
  | append_singleton l a ih =>
    -- the places at which those kept so far occur first stay the same
    have kept : l.eraseDups.Pairwise fun b c => (l ++ [a]).idxOf b < (l ++ [a]).idxOf c := by
      refine List.Pairwise.imp_of_mem ?_ ih
      intro b c memb memc lt
      rw [List.idxOf_append_of_mem (List.mem_eraseDups.mp memb),
        List.idxOf_append_of_mem (List.mem_eraseDups.mp memc)]
      exact lt
    rw [eraseDups_concat]
    split
    · exact kept
    · rename_i new
      refine List.pairwise_append.mpr ⟨kept, List.pairwise_singleton _ _, ?_⟩
      intro b mem c mem'
      obtain rfl := List.mem_singleton.mp mem'
      rw [List.mem_eraseDups] at mem
      rw [List.idxOf_append_of_mem mem, List.idxOf_append_of_notMem new]
      exact Nat.lt_of_lt_of_le (List.idxOf_lt_length_of_mem mem) (Nat.le_add_right _ _)

/-- The entries that are kept are different. -/
lemma nodup_eraseDups (l : List α) : l.eraseDups.Nodup := by
  refine (pairwise_eraseDups l).imp ?_
  rintro a b lt rfl
  exact Nat.lt_irrefl _ lt

end TermHeap
