import TermHeap.Proofs.Heap.Tree
import TermHeap.Proofs.Store.Names
import TermHeap.Store.Read

/-!
# Reading by recursion

The stack of tasks computes what a recursive reader gives that stops below a number of compound
terms (`readTasks_visit`). Where nothing is a part of itself this number does not matter once it is
large enough (`readAt_of_depthLe`), so that there a term is read from the terms of its parts
(`readTerm_eq`).
-/

namespace TermHeap.Store

/-- What the cell at an address reads as, given what its parts read as, or `none` if it must have
no parts. -/
def readCell (s : Store) (part : Option (Addr → Except ReadError Term)) (e : Addr) :
    Cell → Except ReadError Term
  | .ref _ => .ok (s.readVar e)
  | .int value => .ok (.int value)
  | .nil => .ok .nil
  | .sig _ => .error (.signatureAsValue e)
  | .sym k =>
    match s.symbols.name? k with
    | none => .error (.badCell e)
    | some n => .ok (.sym n)
  | .rcd q =>
    match s.heap.read? q with
    | none => .error (.badCell q)
    | some (.sig f) =>
      match s.symbols.name? f.name, part with
      | none, _ => .error (.badCell q)
      | some _, none => .error (.cyclic e)
      | some n, some part => ((List.range' (q + 1) f.arity).mapM part).map (.record n)
    | some _ => .error (.notSignature q)
  | .lst q =>
    match part with
    | none => .error (.cyclic e)
    | some part => (part q).bind fun car => (part (q + 1)).map (.cons car)

/-- What an address reads as, given what the parts of its term read as. -/
def readLevel (s : Store) (part : Option (Addr → Except ReadError Term)) (p : Addr) :
    Except ReadError Term :=
  match s.heap.deref p with
  | .error bad => .error (.badCell bad)
  | .ok (e, c) => s.readCell part e c

/-- The term at an address, below which some compound terms may open. -/
def readAt (s : Store) : (depth : Nat) → Addr → Except ReadError Term
  | 0 => s.readLevel none
  | depth + 1 => s.readLevel (some (s.readAt depth))

variable {s : Store} {p q e : Addr} {c : Cell} {n : String} {d d' : Nat}
  {part part' : Addr → Except ReadError Term}

/-- Reading at some depth reads one level and its parts at one depth less. -/
lemma readAt_eq_readLevel (s : Store) (d : Nat) (p : Addr) :
    s.readAt d p = s.readLevel (match d with | 0 => none | d + 1 => some (s.readAt d)) p := by
  cases d <;> rfl

/-- A level is read from the cell where the references end. -/
lemma readLevel_of_ends (en : s.heap.Ends p e) (hr : s.heap.read? e = some c)
    (part : Option (Addr → Except ReadError Term)) : s.readLevel part p = s.readCell part e c := by
  rw [readLevel, Heap.deref_eq_ok_iff.mpr ⟨en, hr⟩]

/-! ### The stack of tasks -/

/-- Visits to neighbouring addresses put their terms on the stack, if a single visit does. -/
lemma readTasks_visitAll
    (visit : ∀ p rest done, s.readTasks (.visit p d :: rest) done
      = (s.readAt d p).bind fun t => s.readTasks rest (t :: done))
    (a m : Nat) (rest : List Task) (done : List Term) :
    s.readTasks (visitAll a m d rest) done
      = ((List.range' a m).mapM (s.readAt d)).bind fun ts =>
        s.readTasks rest (ts.reverse ++ done) := by
  induction m generalizing a done with
  | zero => rfl
  | succ m ih =>
    have next : visitAll a (m + 1) d rest = .visit a d :: visitAll (a + 1) m d rest := by
      simp [visitAll, List.range'_succ]
    rw [next, visit, List.range'_succ, List.mapM_cons]
    cases hp : s.readAt d a with
    | error e => rfl
    | ok t =>
      simp only [Except.bind, Bind.bind, ih]
      cases hts : (List.range' (a + 1) m).mapM (s.readAt d) with
      | error e => rfl
      | ok ts => simp [pure, Except.pure]

/-- As many terms are read as there are addresses. -/
lemma length_of_mapM {as : List Addr} {ts : List Term} (hm : as.mapM part = .ok ts) :
    ts.length = as.length := by
  induction as generalizing ts with
  | nil =>
    cases hm
    rfl
  | cons a as ih =>
    rw [List.mapM_cons] at hm
    cases ha : part a with
    | error e =>
      rw [ha] at hm
      cases hm
    | ok t =>
      cases has : as.mapM part with
      | error e =>
        rw [ha, has] at hm
        cases hm
      | ok us =>
        rw [ha, has] at hm
        cases hm
        rw [List.length_cons, List.length_cons, ih has]

/-- A record is made of as many terms as its visits put on the stack. -/
lemma readTasks_record {ts : List Term} {m : Nat} (len : ts.length = m) (name : String)
    (rest : List Task) (done : List Term) :
    s.readTasks (.record name m :: rest) (ts.reverse ++ done)
      = s.readTasks rest (.record name ts :: done) := by
  subst len
  rw [readTasks, List.take_left' (by simp), List.drop_left' (by simp), List.reverse_reverse]

/-- A visit puts on the stack what the recursive reader gives, or ends with its error. -/
theorem readTasks_visit (s : Store) (d : Nat) (p : Addr) (rest : List Task) (done : List Term) :
    s.readTasks (.visit p d :: rest) done
      = (s.readAt d p).bind fun t => s.readTasks rest (t :: done) := by
  induction d using Nat.strong_induction_on generalizing p rest done with
  | _ d ih =>
    rw [readTasks, readAt_eq_readLevel, readLevel]
    cases hd : s.heap.deref p with
    | error bad => rfl
    | ok found =>
      obtain ⟨e, c⟩ := found
      cases c with
      | sym k => cases hk : s.symbols.name? k <;> simp [readCell, hk, Except.bind]
      | rcd q =>
        cases hq : s.heap.read? q with
        | none => simp [readCell, hq, Except.bind]
        | some c =>
          cases c with
          | sig f =>
            cases hk : s.symbols.name? f.name with
            | none => simp [readCell, hq, hk, Except.bind]
            | some n =>
              -- only here and at a list pair does the depth matter
              cases d with
              | zero => simp [readCell, hq, hk, Except.bind]
              | succ d =>
                simp only [readCell, hq, hk, readTasks_visitAll (ih d (Nat.lt_succ_self d))]
                cases hts : (List.range' (q + 1) f.arity).mapM (s.readAt d) with
                | error e => rfl
                | ok ts =>
                  have len := length_of_mapM hts
                  rw [List.length_range'] at len
                  exact readTasks_record len n rest done
          | _ => simp [readCell, hq, Except.bind]
      | lst q =>
        cases d with
        | zero => rfl
        | succ d =>
          simp only [readCell, ih d (Nat.lt_succ_self d)]
          cases s.readAt d q with
          | error e => rfl
          | ok car =>
            cases s.readAt d (q + 1) with
            | error e => rfl
            | ok cdr => simp only [Except.bind, Except.map, readTasks]
      | _ => rfl

/-- Reading starts with as much depth as there are cells. -/
theorem readTerm_eq_readAt (s : Store) (p : Addr) : s.readTerm p = s.readAt s.heap.size p := by
  rw [readTerm, readTasks_visit]
  cases s.readAt s.heap.size p with
  | error e => rfl
  | ok t =>
    simp only [Except.bind, readTasks]
    rfl

/-! ### Enough depth -/

/-- Addresses that read alike one by one do so in a row. -/
lemma mapM_congr {as : List Addr} (agree : ∀ a ∈ as, part a = part' a) :
    as.mapM part = as.mapM part' := by
  induction as with
  | nil => rfl
  | cons a as ih =>
    rw [List.mapM_cons, List.mapM_cons, agree a List.mem_cons_self,
      ih fun b mem => agree b (List.mem_cons_of_mem _ mem)]

/-- A record without a signature has no parts to read. -/
lemma readCell_of_no_signature (hq : s.heap.signature? q = none)
    (part part' : Option (Addr → Except ReadError Term)) :
    s.readCell part e (.rcd q) = s.readCell part' e (.rcd q) := by
  rw [readCell, readCell]
  cases hr : s.heap.read? q with
  | none => rfl
  | some c =>
    cases c with
    | sig f =>
      rw [Heap.signature?_eq_some.mpr hr] at hq
      cases hq
    | _ => rfl

/-- What an address reads as depends on what the parts of its term read as. -/
lemma readLevel_congr (agree : ∀ q, s.heap.Part p q → part q = part' q) :
    s.readLevel (some part) p = s.readLevel (some part') p := by
  rw [readLevel, readLevel]
  cases hd : s.heap.deref p with
  | error bad => rfl
  | ok found =>
    obtain ⟨e, c⟩ := found
    cases c with
    | rcd q =>
      cases hq : s.heap.signature? q with
      | none => exact readCell_of_no_signature hq _ _
      | some f =>
        have hv := Heap.view_of_deref hd
        rw [Heap.cellView, hq] at hv
        simp only [readCell, Heap.signature?_eq_some.mp hq]
        cases s.symbols.name? f.name with
        | none => rfl
        | some n =>
          dsimp only
          rw [mapM_congr fun r mem => agree r ⟨_, _, hv, mem⟩]
    | lst q =>
      obtain ⟨car, cdr⟩ := Heap.part_of_pair hd
      simp only [readCell]
      rw [agree q car, agree (q + 1) cdr]
    | _ => rfl

/-- A term without parts is read without depth. -/
lemma readLevel_leaf (nc : ¬ s.heap.Compound p) :
    s.readLevel (some part) p = s.readLevel none p := by
  rw [readLevel, readLevel]
  cases hd : s.heap.deref p with
  | error bad => rfl
  | ok found =>
    obtain ⟨e, c⟩ := found
    obtain ⟨en, hr⟩ := Heap.deref_eq_ok_iff.mp hd
    have hv := Heap.view_of_ends en hr
    cases c with
    | rcd q =>
      cases hq : s.heap.signature? q with
      | none => exact readCell_of_no_signature hq _ _
      | some f =>
        rw [Heap.cellView, hq] at hv
        exact absurd ⟨_, _, hv, rfl⟩ nc
    | lst q => exact absurd ⟨_, _, hv, rfl⟩ nc
    | _ => rfl

/-- More depth than a term needs makes no difference. -/
theorem readAt_of_depthLe (dp : s.heap.DepthLe d p) (le : d ≤ d') :
    s.readAt d' p = s.readAt d p := by
  induction d generalizing d' p with
  | zero =>
    cases d' with
    | zero => rfl
    | succ d' => exact readLevel_leaf dp
  | succ d ih =>
    obtain ⟨d', rfl⟩ := Nat.exists_eq_add_of_le' (Nat.le_trans (Nat.succ_pos d) le)
    apply readLevel_congr
    intro q pt
    exact ih (dp q pt) (Nat.le_of_succ_le_succ le)

/-- Where nothing is a part of itself, a term is read from the terms of its parts. -/
theorem readTerm_eq (ac : s.heap.Acyclic p) : s.readTerm p = s.readLevel (some s.readTerm) p := by
  rw [show s.readTerm = s.readAt s.heap.size from funext s.readTerm_eq_readAt,
    ← readAt_of_depthLe ac.depthLe (Nat.le_succ _)]
  rfl

/-- What is read depends on where the references end. -/
lemma readTerm_of_ends (en : s.heap.Ends p e) : s.readTerm p = s.readTerm e := by
  have level : ∀ part, s.readLevel part p = s.readLevel part e := by
    intro part
    rw [readLevel, readLevel, Heap.deref_of_ends en, Heap.deref_of_ends en.self]
  rw [readTerm_eq_readAt, readTerm_eq_readAt]
  cases s.heap.size with
  | zero => exact level _
  | succ d => exact level _

/-! ### Variables -/

/-- The variable that a name is read as: names that begin with an underscore are not kept. -/
def readName (n : String) : Term := if n.toList.head?.all (· = '_') then .anonymous else .var n

/-- A variable is read by the name under which it is shown. -/
lemma readVar_eq (s : Store) (p : Addr) : s.readVar p = readName (s.varName p) := rfl

/-- A name that begins with an underscore is not kept. -/
lemma readName_of_underscore (n : String) : readName ("_" ++ n) = .anonymous := by
  simp [readName]

/-- A name that begins with no underscore is kept. -/
lemma readName_eq_var (ne : n ≠ "") (hn : n.toList.head? ≠ some '_') : readName n = .var n := by
  rw [readName, if_neg]
  cases hl : n.toList with
  | nil => exact absurd (String.toList_eq_nil_iff.mp hl) ne
  | cons c cs =>
    rw [hl] at hn
    simpa using hn

/-- Names that are made up begin with an underscore. -/
lemma exists_freeName (s : Store) (p : Addr) (m tries : Nat) :
    ∃ n, s.freeName p m tries = "_" ++ n := by
  have candidate : ∀ m, ∃ n, candidateName p m = "_" ++ n := by
    intro m
    rw [candidateName]
    split
    · exact ⟨_, rfl⟩
    · exact ⟨toString p ++ "_" ++ toString m, by simp [String.append_assoc]⟩
  induction tries generalizing m with
  | zero => exact candidate m
  | succ tries ih =>
    rw [freeName]
    split
    · exact ih (m + 1)
    · exact candidate m

/-- A variable without a name is read as an anonymous one. -/
lemma readVar_of_no_name (hn : s.vars.name? p = none) : s.readVar p = .anonymous := by
  obtain ⟨n, hf⟩ := s.exists_freeName p 0 s.symbols.size
  have name : s.varName p = "_" ++ n := by
    rw [varName_def]
    simp only [hn, hf]
  rw [readVar_eq, name, readName_of_underscore]

/-- A variable with a name is read by it. -/
lemma Named.readVar_eq (nm : s.Named) (hf : s.findVar? n = some p) : s.readVar p = readName n := by
  rw [Store.readVar_eq, nm.varName_eq hf]

end TermHeap.Store
