import TermHeap.Proofs.FirstUse
import TermHeap.Proofs.Program.Grouping

/-!
# The order of groups and clauses

Whatever the order in which clauses of different names and arities arrive, a program consists of one
group for each of them: the groups in the order in which their first clauses came, and in each group
its clauses in the order in which they came (`foldl_addToGroups`). From this follow what the groups
hold, how many clauses there are, and which group is found (`Program.ofList_groups`).
-/

namespace TermHeap

variable {c : Clause} {cs : List Clause} {g : Group} {gs : List Group} {k k' : String × Nat}

/-- The names and arities of clauses, in the order in which they first occur. -/
def keysOf (cs : List Clause) : List (String × Nat) := (cs.map Clause.key).eraseDups

/-- The group of those clauses that have a given name and arity. -/
def groupOf (cs : List Clause) (k : String × Nat) : Group :=
  ⟨k.1, k.2, (cs.filter (·.key = k)).toArray⟩

/-! ### Names and arities -/

/-- The keys are those of the clauses. -/
lemma mem_keysOf : k ∈ keysOf cs ↔ k ∈ cs.map Clause.key := by rw [keysOf, List.mem_eraseDups]

/-- The key of a clause at the end is added if it is new. -/
lemma keysOf_concat (cs : List Clause) (c : Clause) :
    keysOf (cs ++ [c]) = if c.key ∈ keysOf cs then keysOf cs else keysOf cs ++ [c.key] := by
  rw [keysOf, List.map_append, List.map_singleton, eraseDups_concat, ← keysOf]
  simp only [mem_keysOf]

/-- Those that stand earlier occur first at an earlier place. -/
lemma pairwise_keysOf (cs : List Clause) : (keysOf cs).Pairwise fun k k' =>
    (cs.map Clause.key).idxOf k < (cs.map Clause.key).idxOf k' := pairwise_eraseDups _

/-- No key is listed twice. -/
lemma nodup_keysOf (cs : List Clause) : (keysOf cs).Nodup := nodup_eraseDups _

/-! ### Groups -/

@[simp] lemma key_groupOf (cs : List Clause) (k : String × Nat) : (groupOf cs k).key = k := rfl

/-- A clause at the end is added to its group. -/
lemma groupOf_concat_self (cs : List Clause) (c : Clause) :
    groupOf (cs ++ [c]) c.key = (groupOf cs c.key).add c := by
  simp [groupOf, Group.add]

/-- A clause at the end changes no other group. -/
lemma groupOf_concat_of_ne (ne : k ≠ c.key) : groupOf (cs ++ [c]) k = groupOf cs k := by
  simp [groupOf, Ne.symm ne]

/-- A key of no clause has an empty group. -/
lemma groupOf_new (new : k ∉ keysOf cs) : groupOf cs k = ⟨k.1, k.2, #[]⟩ := by
  have none : cs.filter (·.key = k) = [] := by
    refine List.filter_eq_nil_iff.mpr fun c mem eq => new (mem_keysOf.mpr ?_)
    exact List.mem_map.mpr ⟨c, mem, of_decide_eq_true eq⟩
  rw [groupOf, none]

/-- A clause of a known name and arity is added to the group for these. -/
lemma addToGroups_old (nd : (gs.map Group.key).Nodup) (old : c.key ∈ gs.map Group.key) :
    addToGroups gs c = gs.map fun g => if g.key = c.key then g.add c else g := by
  induction gs with
  | nil => cases old
  | cons g gs ih =>
    rw [List.map_cons, List.nodup_cons] at nd
    rw [addToGroups, List.map_cons]
    by_cases here : g.key = c.key
    · -- the groups behind are for others
      have others : (gs.map fun g => if g.key = c.key then g.add c else g) = gs := by
        refine (List.map_congr_left fun g' mem => if_neg ?_).trans (List.map_id gs)
        intro eq
        exact nd.1 (here.trans eq.symm ▸ List.mem_map_of_mem mem)
      rw [if_pos (matches?_iff.mpr here), if_pos here, others]
    · have old : c.key ∈ gs.map Group.key := (List.mem_cons.mp old).resolve_left (Ne.symm here)
      rw [if_neg fun eq => here (matches?_iff.mp eq), if_neg here, ih nd.2 old]

/-- Clauses that are added in turn form the groups of their names and arities. -/
theorem foldl_addToGroups (cs : List Clause) :
    cs.foldl addToGroups [] = (keysOf cs).map (groupOf cs) := by
  induction cs using List.reverseRecOn with
  | nil => rfl
  | append_singleton cs c ih =>
    have keys : ((keysOf cs).map (groupOf cs)).map Group.key = keysOf cs := by
      rw [List.map_map]
      exact List.map_id _
    rw [List.foldl_append, ih, List.foldl_cons, List.foldl_nil, keysOf_concat]
    by_cases old : c.key ∈ keysOf cs
    · rw [if_pos old, addToGroups_old (by rw [keys]; exact nodup_keysOf cs) (by rwa [keys]),
        List.map_map]
      refine List.map_congr_left fun k _ => ?_
      rw [Function.comp_apply, key_groupOf]
      by_cases here : k = c.key
      · rw [if_pos here, here, groupOf_concat_self]
      · rw [if_neg here, groupOf_concat_of_ne here]
    · rw [if_neg old, addToGroups_new (by rwa [keys]), List.map_append, List.map_singleton,
        groupOf_concat_self, groupOf_new old]
      congr 1
      refine List.map_congr_left fun k mem => (groupOf_concat_of_ne ?_).symm
      rintro rfl
      exact old mem

/-! ### Programs -/

namespace Program

/-- The program of clauses that are added in turn. -/
def ofList (cs : List Clause) : Program := cs.foldl add .empty

/-- The groups of a program are those of its keys. -/
lemma groups_ofList (cs : List Clause) :
    (ofList cs).groups.toList = (keysOf cs).map (groupOf cs) := by
  rw [ofList, groups_foldl_add]
  exact foldl_addToGroups cs

/-- Their keys stand in the order of first use. -/
lemma keys_ofList (cs : List Clause) : (ofList cs).groups.toList.map Group.key = keysOf cs := by
  rw [groups_ofList, List.map_map]
  exact List.map_id _

/-! ### Counting -/

/-- The clauses are counted group by group. -/
lemma numClauses_eq (p : Program) : p.numClauses = p.clauses.length := by
  have count : ∀ (gs : List Group) (n : Nat), gs.foldl (fun n g => n + g.clauses.size) n =
      n + (gs.flatMap (·.clauses.toList)).length := by
    intro gs
    induction gs with
    | nil => intro n; rfl
    | cons g gs ih =>
      intro n
      rw [List.foldl_cons, ih, List.flatMap_cons, List.length_append, Nat.add_assoc]
      rfl
  rw [numClauses, ← Array.foldl_toList, count, Nat.zero_add, clauses]

/-- A clause is added exactly once. -/
lemma length_addToGroups (gs : List Group) (c : Clause) :
    ((addToGroups gs c).flatMap (·.clauses.toList)).length =
      (gs.flatMap (·.clauses.toList)).length + 1 := by
  induction gs with
  | nil => rfl
  | cons g gs ih =>
    rw [addToGroups]
    split
    · simp [Group.add]
      omega
    · rw [List.flatMap_cons, List.flatMap_cons, List.length_append, List.length_append, ih,
        Nat.add_assoc]

/-- A clause that is added counts. -/
lemma numClauses_add (p : Program) (c : Clause) : (p.add c).numClauses = p.numClauses + 1 := by
  rw [numClauses_eq, numClauses_eq, clauses, groups_add, length_addToGroups, clauses]

/-- All clauses count. -/
lemma numClauses_ofList (cs : List Clause) : (ofList cs).numClauses = cs.length := by
  induction cs using List.reverseRecOn with
  | nil => rfl
  | append_singleton cs c ih =>
    rw [ofList, List.foldl_append, List.foldl_cons, List.foldl_nil, ← ofList, numClauses_add, ih,
      List.length_append, List.length_singleton]

/-! ### Finding -/

variable {p : Program} {name : String} {arity i : Nat}

/-- A group matches a name and an arity if they are its key. -/
lemma matches?_eq_true : g.matches? name arity = true ↔ g.key = (name, arity) := by
  simp [Group.matches?, Group.key, and_comm]

/-- No group is found only if there is none. -/
lemma find?_eq_none :
    p.find? name arity = none ↔ (name, arity) ∉ p.groups.toList.map Group.key := by
  rw [find?, Array.findIdx?_eq_none_iff, List.mem_map]
  simp [← matches?_eq_true]

/-- The group that is found is the only one for its name and arity. -/
lemma find?_eq_some (nd : (p.groups.toList.map Group.key).Nodup) :
    p.find? name arity = some i ↔ ∃ g, p.groups[i]? = some g ∧ g.key = (name, arity) := by
  rw [find?, Array.findIdx?_eq_some_iff_getElem]
  constructor
  · rintro ⟨lt, here, _⟩
    exact ⟨p.groups[i], Array.getElem?_eq_getElem lt, matches?_eq_true.mp here⟩
  · rintro ⟨g, hg, key⟩
    obtain ⟨lt, rfl⟩ := Array.getElem?_eq_some_iff.mp hg
    refine ⟨lt, matches?_eq_true.mpr key, ?_⟩
    intro j before there
    -- an earlier group for the same name and arity would be the same group
    have same : p.groups[j].key = p.groups[i].key := (matches?_eq_true.mp there).trans key.symm
    have differ := List.pairwise_iff_getElem.mp nd j i (by simp; omega) (by simpa using lt) before
    rw [List.getElem_map, List.getElem_map] at differ
    exact differ same

/-- **Grouping is stable.** Whatever clauses were added, the groups are for different names and
arities and stand in the order in which these first occurred. Each of them holds the clauses of its
name and arity, at least one, in the order in which they came, and no clause is lost or counted
twice. The group of a name and arity is found exactly if a clause has these. -/
theorem ofList_groups (cs : List Clause) :
    ((ofList cs).groups.toList.map Group.key).Nodup ∧
    (∀ g ∈ (ofList cs).groups.toList,
      g.clauses.toList = cs.filter (·.key = g.key) ∧ g.clauses.toList ≠ []) ∧
    ((ofList cs).groups.toList.Pairwise fun g g' =>
      (cs.map Clause.key).idxOf g.key < (cs.map Clause.key).idxOf g'.key) ∧
    (ofList cs).numClauses = cs.length ∧
    ∀ name arity,
      (∀ i, (ofList cs).find? name arity = some i ↔
        ∃ g, (ofList cs).groups[i]? = some g ∧ g.key = (name, arity)) ∧
      ((ofList cs).find? name arity = none ↔ ∀ c ∈ cs, c.key ≠ (name, arity)) := by
  have nd : ((ofList cs).groups.toList.map Group.key).Nodup := keys_ofList cs ▸ nodup_keysOf cs
  refine ⟨nd, ?_, ?_, numClauses_ofList cs, ?_⟩
  · intro g mem
    rw [groups_ofList] at mem
    obtain ⟨k, mk, rfl⟩ := List.mem_map.mp mem
    obtain ⟨c, mc, rfl⟩ := List.mem_map.mp (mem_keysOf.mp mk)
    refine ⟨rfl, List.ne_nil_of_mem (a := c) ?_⟩
    exact List.mem_filter.mpr ⟨mc, decide_eq_true rfl⟩
  · rw [groups_ofList, List.pairwise_map]
    exact pairwise_keysOf cs
  · intro name arity
    refine ⟨fun i => find?_eq_some nd, ?_⟩
    rw [find?_eq_none, keys_ofList, mem_keysOf, List.mem_map]
    simp

/-- Heads of different kinds may have the same name and arity. -/
example :
    (ofList [⟨.nil, []⟩, ⟨.sym "f", []⟩, ⟨.int 3, []⟩, ⟨.record "f" [], [.nil]⟩]).groups.toList.map
        (fun g => (g.key, g.clauses.toList.map Clause.isFact)) =
      [(("", 0), [true, true]), (("f", 0), [true, false])] := by cbv

end Program
end TermHeap
