import Mathlib
import TermHeap.Program.Basic

/-!
# Grouping clauses again

The groups of a program have different names and arities and are never empty (`Grouped`), in
whatever order its clauses were added. So adding the clauses once more, group by group, makes the
same groups in the same order with the same clauses in each (`regroup`), although they are then
added in another order than at first.
-/

namespace TermHeap

variable {c : Clause} {cs : List Clause} {g : Group} {gs gs' : List Group}

/-- The name and the arity by which a clause is known. -/
def Clause.key (c : Clause) : String × Nat := (c.name, c.arity)

/-- The name and the arity that a group is for. -/
def Group.key (g : Group) : String × Nat := (g.name, g.arity)

/-- Add a clause to the first group of its name and arity, or open one behind the others. -/
def addToGroups : List Group → Clause → List Group
  | [], c => [⟨c.name, c.arity, #[c]⟩]
  | g :: gs, c => if g.matches? c.name c.arity then g.add c :: gs else g :: addToGroups gs c

/-- The group has clauses, and all of them are of its name and arity. -/
def Group.Proper (g : Group) : Prop :=
  g.clauses.toList ≠ [] ∧ ∀ c ∈ g.clauses.toList, c.key = g.key

/-- The groups are proper, and no two of them are for the same name and arity. -/
structure Grouped (gs : List Group) : Prop where
  nodup : (gs.map Group.key).Nodup
  proper : ∀ g ∈ gs, g.Proper

/-- A group matches the clauses with its key. -/
lemma matches?_iff : g.matches? c.name c.arity = true ↔ g.key = c.key := by
  simp [Group.matches?, Group.key, Clause.key, and_comm]

/-- Adding a clause to a program goes through its groups in order. -/
lemma Program.groups_add (p : Program) (c : Clause) :
    (p.add c).groups.toList = addToGroups p.groups.toList c := by
  have search : ∀ gs : List Group,
      (gs.findIdx? (·.matches? c.name c.arity)).elim (gs ++ [⟨c.name, c.arity, #[c]⟩])
        (gs.modify · (·.add c)) = addToGroups gs c := by
    intro gs
    induction gs with
    | nil => rfl
    | cons g gs ih =>
      by_cases here : g.matches? c.name c.arity = true
      · simp [List.findIdx?_cons, addToGroups, here]
      · rw [addToGroups, if_neg here, ← ih, List.findIdx?_cons, if_neg here]
        cases gs.findIdx? (·.matches? c.name c.arity) with
        | none => rfl
        | some i => simp
  obtain ⟨⟨gs⟩⟩ := p
  rw [← search, Program.add, Program.find?, List.findIdx?_toArray]
  cases gs.findIdx? (·.matches? c.name c.arity) with
  | none => simp
  | some i => simp

/-- Adding clauses to a program in turn goes through its groups in order. -/
lemma Program.groups_foldl_add (p : Program) (cs : List Clause) :
    (cs.foldl Program.add p).groups.toList = cs.foldl addToGroups p.groups.toList := by
  induction cs generalizing p with
  | nil => rfl
  | cons c cs ih => rw [List.foldl_cons, ih, Program.groups_add, List.foldl_cons]

/-- Adding a clause adds its key, if it is new, behind the others. -/
lemma keys_addToGroups (gs : List Group) (c : Clause) :
    (addToGroups gs c).map Group.key =
      if c.key ∈ gs.map Group.key then gs.map Group.key else gs.map Group.key ++ [c.key] := by
  induction gs with
  | nil => rfl
  | cons g gs ih =>
    rw [addToGroups]
    by_cases here : g.matches? c.name c.arity = true
    · have eq := matches?_iff.mp here
      have same : (g.add c).key = g.key := rfl
      rw [if_pos here, List.map_cons, List.map_cons, same, eq, if_pos List.mem_cons_self]
    · have ne : c.key ≠ g.key := fun eq => here (matches?_iff.mpr eq.symm)
      rw [if_neg here, List.map_cons, List.map_cons, ih]
      simp only [List.mem_cons, ne, false_or]
      split
      · rfl
      · rfl

/-- After a clause was added, a group is an old one, an old one with the clause, or a new one. -/
lemma mem_addToGroups (mem : g ∈ addToGroups gs c) :
    g ∈ gs ∨ (∃ g' ∈ gs, g'.key = c.key ∧ g = g'.add c) ∨ g = ⟨c.name, c.arity, #[c]⟩ := by
  induction gs with
  | nil => exact .inr (.inr (List.mem_singleton.mp mem))
  | cons g' gs ih =>
    rw [addToGroups] at mem
    split at mem
    · rename_i here
      rcases List.mem_cons.mp mem with rfl | mem
      · exact .inr (.inl ⟨g', List.mem_cons_self, matches?_iff.mp here, rfl⟩)
      · exact .inl (List.mem_cons_of_mem g' mem)
    · rcases List.mem_cons.mp mem with rfl | mem
      · exact .inl List.mem_cons_self
      · obtain mem | ⟨g'', mem, eq⟩ | eq := ih mem
        · exact .inl (List.mem_cons_of_mem g' mem)
        · exact .inr (.inl ⟨g'', List.mem_cons_of_mem g' mem, eq⟩)
        · exact .inr (.inr eq)

/-- A proper group takes another clause of its key. -/
lemma Group.Proper.add (pr : g.Proper) (eq : g.key = c.key) : (g.add c).Proper := by
  refine ⟨by simp [Group.add], ?_⟩
  intro d mem
  rw [Group.add, Array.toList_push] at mem
  rcases List.mem_append.mp mem with mem | mem
  · exact pr.2 d mem
  · obtain rfl := List.mem_singleton.mp mem
    exact eq.symm

/-- No groups are as they should be. -/
lemma Grouped.nil : Grouped [] := ⟨List.nodup_nil, by simp⟩

/-- Adding a clause keeps groups as they should be. -/
theorem Grouped.addToGroups (gr : Grouped gs) (c : Clause) : Grouped (addToGroups gs c) := by
  constructor
  · rw [keys_addToGroups]
    split
    · exact gr.nodup
    · rename_i new
      refine List.nodup_append.mpr ⟨gr.nodup, by simp, ?_⟩
      rintro k mem k' mem' rfl
      exact new (List.mem_singleton.mp mem' ▸ mem)
  · intro g mem
    obtain old | ⟨g', old, eq, rfl⟩ | rfl := mem_addToGroups mem
    · exact gr.proper g old
    · exact (gr.proper g' old).add eq
    · refine ⟨nofun, ?_⟩
      intro d mem
      obtain rfl := List.mem_singleton.mp mem
      rfl

/-- Adding clauses in turn keeps groups as they should be. -/
lemma grouped_foldl (gr : Grouped gs) (cs : List Clause) :
    Grouped (cs.foldl addToGroups gs) := by
  induction cs generalizing gs with
  | nil => exact gr
  | cons c cs ih => exact ih (gr.addToGroups c)

/-- A clause of a name and arity that no group is for opens a group. -/
lemma addToGroups_new (new : c.key ∉ gs.map Group.key) :
    addToGroups gs c = gs ++ [⟨c.name, c.arity, #[c]⟩] := by
  induction gs with
  | nil => rfl
  | cons g gs ih =>
    rw [List.map_cons, List.mem_cons, not_or] at new
    rw [addToGroups, if_neg fun here => new.1 (matches?_iff.mp here).symm, ih new.2,
      List.cons_append]

/-- A clause of the last group is added to it. -/
lemma addToGroups_last (new : c.key ∉ gs.map Group.key) (eq : g.key = c.key) :
    addToGroups (gs ++ [g]) c = gs ++ [g.add c] := by
  induction gs with
  | nil => rw [List.nil_append, addToGroups, if_pos (matches?_iff.mpr eq), List.nil_append]
  | cons g' gs ih =>
    rw [List.map_cons, List.mem_cons, not_or] at new
    rw [List.cons_append, addToGroups, if_neg fun here => new.1 (matches?_iff.mp here).symm,
      ih new.2, List.cons_append]

/-- Clauses of the last group are added to it in turn. -/
lemma foldl_addToGroups_last (new : g.key ∉ gs.map Group.key) (eq : ∀ c ∈ cs, c.key = g.key) :
    cs.foldl addToGroups (gs ++ [g]) =
      gs ++ [⟨g.name, g.arity, g.clauses ++ cs.toArray⟩] := by
  induction cs generalizing g with
  | nil => simp
  | cons c cs ih =>
    have hc := eq c List.mem_cons_self
    rw [List.foldl_cons, addToGroups_last (hc ▸ new) hc.symm]
    rw [ih (g := g.add c) new fun d mem => eq d (List.mem_cons_of_mem c mem)]
    simp [Group.add]

/-- Adding the clauses of a group behind other groups makes that group behind them. -/
lemma foldl_addToGroups_group (pr : g.Proper) (new : g.key ∉ gs.map Group.key) :
    g.clauses.toList.foldl addToGroups gs = gs ++ [g] := by
  obtain ⟨name, arity, ⟨cs⟩⟩ := g
  obtain ⟨ne, keys⟩ := pr
  cases cs with
  | nil => exact absurd rfl ne
  | cons c cs =>
    have hc := keys c List.mem_cons_self
    have hn : c.name = name := congrArg Prod.fst hc
    have ha : c.arity = arity := congrArg Prod.snd hc
    have hk : c.key ∉ gs.map Group.key := hc ▸ new
    rw [List.foldl_cons, addToGroups_new hk, foldl_addToGroups_last hk]
    · simp [hn, ha]
    · intro d mem
      exact (keys d (List.mem_cons_of_mem c mem)).trans hc.symm

/-- Adding the clauses of groups makes these groups behind the others. -/
lemma foldl_addToGroups_groups (gr : Grouped (gs ++ gs')) :
    (gs'.flatMap (·.clauses.toList)).foldl addToGroups gs = gs ++ gs' := by
  induction gs' generalizing gs with
  | nil => rw [List.append_nil]; rfl
  | cons g gs' ih =>
    have nodup := gr.nodup
    rw [List.map_append, List.map_cons] at nodup
    have new : g.key ∉ gs.map Group.key := by
      intro mem
      exact (List.nodup_append.mp nodup).2.2 _ mem _ List.mem_cons_self rfl
    have pr := gr.proper g (List.mem_append_right gs List.mem_cons_self)
    rw [List.flatMap_cons, List.foldl_append, foldl_addToGroups_group pr new]
    rw [ih, List.append_assoc, List.singleton_append]
    rwa [List.append_assoc, List.singleton_append]

namespace Program

/-- The clauses of a program, group by group. -/
def clauses (p : Program) : List Clause := p.groups.toList.flatMap (·.clauses.toList)

/-- The groups of a program are as they should be, however its clauses were added. -/
lemma grouped {p : Program} (eq : p = cs.foldl Program.add .empty) : Grouped p.groups.toList := by
  rw [eq, groups_foldl_add]
  exact grouped_foldl .nil cs

/-- Adding the clauses of a program group by group makes the same program. -/
theorem regroup {p : Program} (eq : p = cs.foldl Program.add .empty) :
    p.clauses.foldl Program.add .empty = p := by
  have same : (p.clauses.foldl Program.add .empty).groups.toList = p.groups.toList := by
    rw [groups_foldl_add]
    show _ = [] ++ p.groups.toList
    exact foldl_addToGroups_groups (grouped eq)
  exact congrArg Program.mk (Array.toList_inj.mp same)

end Program

/-- A clause of the groups was in them before or has been added. -/
lemma mem_foldl_addToGroups {d : Clause}
    (mem : d ∈ (cs.foldl addToGroups gs).flatMap (·.clauses.toList)) :
    d ∈ gs.flatMap (·.clauses.toList) ∨ d ∈ cs := by
  induction cs generalizing gs with
  | nil => exact .inl mem
  | cons c cs ih =>
    rcases ih mem with mem | mem
    · obtain ⟨g, mg, md⟩ := List.mem_flatMap.mp mem
      obtain old | ⟨g', old, _, rfl⟩ | rfl := mem_addToGroups mg
      · exact .inl (List.mem_flatMap.mpr ⟨g, old, md⟩)
      · rw [Group.add, Array.toList_push] at md
        rcases List.mem_append.mp md with md | md
        · exact .inl (List.mem_flatMap.mpr ⟨g', old, md⟩)
        · exact .inr (List.mem_singleton.mp md ▸ List.mem_cons_self)
      · exact .inr (List.mem_singleton.mp md ▸ List.mem_cons_self)
    · exact .inr (List.mem_cons_of_mem c mem)

end TermHeap
