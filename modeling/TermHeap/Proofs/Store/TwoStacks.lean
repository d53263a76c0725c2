import Mathlib
import TermHeap.Proofs.Store.Reading

/-!
# Reading an untrusted heap

`ReadsAs` says by recursion from left to right what an address reads as, whatever the cells are: a
term, or the fault of the first bad cell. A reader with a stack of frames and a stack of results
reads the signature of a record twice and takes results by their number, so it could find a cell or
a symbol missing that was there before, take more results than there are, or be left with too many
of them. It never does: where nothing is a part of itself it comes to the result of the recursion,
in whatever state an earlier reading left its stacks (`runs_of_readsAs`), and so does `readTerm`
(`readTerm_exact`).
-/

namespace TermHeap

namespace Store

/-- What an address reads as: a term, or the first fault from left to right. -/
inductive ReadsAs (s : Store) : Addr → Except ReadError Term → Prop where
  /-- The references from the address leave the heap or have no end. -/
  | unresolved {p bad} : s.heap.deref p = .error bad → ReadsAs s p (.error (.badCell bad))
  | var {p e q} : s.heap.deref p = .ok (e, .ref q) → ReadsAs s p (.ok (s.readVar e))
  | int {p e v} : s.heap.deref p = .ok (e, .int v) → ReadsAs s p (.ok (.int v))
  | nil {p e} : s.heap.deref p = .ok (e, .nil) → ReadsAs s p (.ok .nil)
  | sym {p e k n} : s.heap.deref p = .ok (e, .sym k) → s.symbols.name? k = some n →
      ReadsAs s p (.ok (.sym n))
  | unknownSymbol {p e k} : s.heap.deref p = .ok (e, .sym k) → s.symbols.name? k = none →
      ReadsAs s p (.error (.badCell e))
  | signature {p e f} : s.heap.deref p = .ok (e, .sig f) →
      ReadsAs s p (.error (.signatureAsValue e))
  | noTarget {p e q} : s.heap.deref p = .ok (e, .rcd q) → s.heap.read? q = none →
      ReadsAs s p (.error (.badCell q))
  | notSignature {p e q c} : s.heap.deref p = .ok (e, .rcd q) → s.heap.read? q = some c →
      (∀ f, c ≠ .sig f) → ReadsAs s p (.error (.notSignature q))
  | unknownName {p e q f} : s.heap.deref p = .ok (e, .rcd q) → s.heap.read? q = some (.sig f) →
      s.symbols.name? f.name = none → ReadsAs s p (.error (.badCell q))
  | record {p e q f n} {args : List Term} : s.heap.deref p = .ok (e, .rcd q) →
      s.heap.read? q = some (.sig f) → s.symbols.name? f.name = some n → args.length = f.arity →
      (∀ i (hi : i < args.length), ReadsAs s (q + 1 + i) (.ok args[i])) →
      ReadsAs s p (.ok (.record n args))
  /-- The arguments `before` the first faulty one have been read. -/
  | argument {p e q f n} {before : List Term} {err} : s.heap.deref p = .ok (e, .rcd q) →
      s.heap.read? q = some (.sig f) → s.symbols.name? f.name = some n → before.length < f.arity →
      (∀ i (hi : i < before.length), ReadsAs s (q + 1 + i) (.ok before[i])) →
      ReadsAs s (q + 1 + before.length) (.error err) → ReadsAs s p (.error err)
  | cons {p e q car cdr} : s.heap.deref p = .ok (e, .lst q) → ReadsAs s q (.ok car) →
      ReadsAs s (q + 1) (.ok cdr) → ReadsAs s p (.ok (.cons car cdr))
  | car {p e q err} : s.heap.deref p = .ok (e, .lst q) → ReadsAs s q (.error err) →
      ReadsAs s p (.error err)
  | cdr {p e q car err} : s.heap.deref p = .ok (e, .lst q) → ReadsAs s q (.ok car) →
      ReadsAs s (q + 1) (.error err) → ReadsAs s p (.error err)

end Store

/-! ### The reader with two stacks -/

namespace TwoStacks

/-- What is still to be done. -/
inductive Frame where
  /-- Read the term at an address. -/
  | visit (a : Addr)
  /-- Make a record, whose signature is at an address, of the latest results. -/
  | record (target : Addr)
  /-- Make a list pair of the last two results. -/
  | pair

/-- The frames with the next one first, the results with the latest first. -/
structure Reader where
  frames : List Frame
  results : List Term

/-- What can go wrong beside faults of the heap. -/
inductive Misuse where
  /-- There is no cell where a signature was. -/
  | noCell
  /-- There is another cell where a signature was. -/
  | noSignature
  /-- The symbol is not in the table. -/
  | noSymbol
  /-- There are too few results. -/
  | noResult
  /-- The work is done, but there is not exactly one result. -/
  | leftover

/-- What a step leads to. -/
inductive Outcome where
  | more (reader : Reader)
  | done (result : Except ReadError Term)

/-- Begin to read at an address. The stacks of an earlier reading are cleared. -/
def Reader.start (_ : Reader) (root : Addr) : Reader := ⟨[.visit root], []⟩

/-- Visits to `n` neighbouring addresses, then other frames. -/
def visits (a : Addr) (n : Nat) (rest : List Frame) : List Frame :=
  (List.range' a n).map .visit ++ rest

/-- Visit the record whose signature is at `target`. -/
def visitRecord (s : Store) (target : Addr) (rest : List Frame) (results : List Term) : Outcome :=
  match s.heap.read? target with
  | none => .done (.error (.badCell target))
  | some (.sig f) =>
    match s.symbols.name? f.name with
    | none => .done (.error (.badCell target))
    | some _ => .more ⟨visits (target + 1) f.arity (.record target :: rest), results⟩
  | some _ => .done (.error (.notSignature target))

/-- Visit the unbound variable at `a`, which may have been given the name of a symbol. -/
def visitVar (s : Store) (given : Option Symbol) (a : Addr) (rest : List Frame)
    (results : List Term) : Except Misuse Outcome :=
  match given.map s.symbols.name? with
  | some none => .error .noSymbol
  | _ => .ok (.more ⟨rest, s.readVar a :: results⟩)

/-- Visit the term at an address. -/
def visit (s : Store) (a : Addr) (rest : List Frame) (results : List Term) :
    Except Misuse Outcome :=
  match s.heap.deref a with
  | .error bad => .ok (.done (.error (.badCell bad)))
  | .ok (a, .ref _) => visitVar s (s.vars.name? a) a rest results
  | .ok (_, .int value) => .ok (.more ⟨rest, .int value :: results⟩)
  | .ok (_, .nil) => .ok (.more ⟨rest, .nil :: results⟩)
  | .ok (a, .sig _) => .ok (.done (.error (.signatureAsValue a)))
  | .ok (a, .sym k) =>
    match s.symbols.name? k with
    | none => .ok (.done (.error (.badCell a)))
    | some n => .ok (.more ⟨rest, .sym n :: results⟩)
  | .ok (_, .rcd target) => .ok (visitRecord s target rest results)
  | .ok (_, .lst car) => .ok (.more ⟨.visit car :: .visit (car + 1) :: .pair :: rest, results⟩)

/-- Make the record whose signature is at `target`. -/
def buildRecord (s : Store) (target : Addr) (rest : List Frame) (results : List Term) :
    Except Misuse Outcome :=
  match s.heap.read? target with
  | none => .error .noCell
  | some (.sig f) =>
    if f.arity ≤ results.length then
      match s.symbols.name? f.name with
      | none => .error .noSymbol
      | some n =>
        .ok (.more ⟨rest, .record n (results.take f.arity).reverse :: results.drop f.arity⟩)
    else .error .noResult
  | some _ => .error .noSignature

/-- One step. -/
def step (s : Store) (r : Reader) : Except Misuse Outcome :=
  match r.frames with
  | [] =>
    match r.results with
    | [t] => .ok (.done (.ok t))
    | _ => .error .leftover
  | .visit a :: rest => visit s a rest r.results
  | .record target :: rest => buildRecord s target rest r.results
  | .pair :: rest =>
    match r.results with
    | cdr :: car :: results => .ok (.more ⟨rest, .cons car cdr :: results⟩)
    | _ => .error .noResult

/-- Steps without misuse lead from a reader to a result. -/
inductive Runs (s : Store) : Reader → Except ReadError Term → Prop where
  | done {r result} : step s r = .ok (.done result) → Runs s r result
  | more {r r' result} : step s r = .ok (.more r') → Runs s r' result → Runs s r result

/-- Once a visit gave `result`, the reader comes to `out`: at once if it is a fault. -/
def Continues (s : Store) (rest : List Frame) (results : List Term)
    (result out : Except ReadError Term) : Prop :=
  match result with
  | .error err => out = .error err
  | .ok t => Runs s ⟨rest, t :: results⟩ out

/-- Whatever waits below, a visit to the address gives the result. -/
def Visits (s : Store) (p : Addr) (result : Except ReadError Term) : Prop :=
  ∀ rest results out, Continues s rest results result out →
    Runs s ⟨.visit p :: rest, results⟩ out

variable {s : Store} {p q e a : Addr} {rest : List Frame} {results ts : List Term} {t : Term}
  {err : ReadError} {result out : Except ReadError Term} {n : String} {f : Signature}

/-- A row of visits begins with the first. -/
lemma visits_succ (a : Addr) (m : Nat) (rest : List Frame) :
    visits a (m + 1) rest = .visit a :: visits (a + 1) m rest := by
  rw [visits, List.range'_succ]
  rfl

/-- A row of visits can be cut in two. -/
lemma visits_add (a : Addr) (m k : Nat) (rest : List Frame) :
    visits a (m + k) rest = visits a m (visits (a + m) k rest) := by
  rw [visits, visits, visits, ← List.append_assoc, ← List.map_append, List.range'_append_1]

/-! ### One visit -/

/-- A visit that puts a term on the results. -/
lemma Visits.of_term
    (hv : ∀ rest results, visit s p rest results = .ok (.more ⟨rest, t :: results⟩)) :
    Visits s p (.ok t) := by
  intro rest results out cont
  exact .more (hv rest results) cont

/-- A visit that meets a fault. -/
lemma Visits.of_fault
    (hv : ∀ rest results, visit s p rest results = .ok (.done (.error err))) :
    Visits s p (.error err) := by
  intro rest results out cont
  cases cont
  exact .done (hv rest results)

/-- Visits to a row of good addresses put its terms on the results, with the latest first. -/
lemma runs_visits (row : ∀ i (hi : i < ts.length), Visits s (a + i) (.ok ts[i]))
    (rn : Runs s ⟨rest, ts.reverse ++ results⟩ out) :
    Runs s ⟨visits a ts.length rest, results⟩ out := by
  induction ts generalizing a results with
  | nil => exact rn
  | cons t ts ih =>
    rw [List.length_cons, visits_succ]
    apply row 0 (Nat.succ_pos _)
    apply ih
    · intro i hi
      rw [Nat.add_assoc, Nat.add_comm 1 i]
      exact row (i + 1) (Nat.succ_lt_succ hi)
    · simpa using rn

/-- A record is made of its arguments once they are on the results. -/
lemma step_record (hq : s.heap.read? q = some (.sig f)) (hn : s.symbols.name? f.name = some n)
    (len : ts.length = f.arity) :
    step s ⟨.record q :: rest, ts.reverse ++ results⟩ =
      .ok (.more ⟨rest, .record n ts :: results⟩) := by
  have enough : f.arity ≤ (ts.reverse ++ results).length := by
    rw [List.length_append, List.length_reverse, len]
    exact Nat.le_add_right _ _
  simp only [step, buildRecord, hq, if_pos enough, hn]
  rw [List.take_left' (by simpa using len), List.drop_left' (by simpa using len),
    List.reverse_reverse]

/-- The name that a variable was given is that of a known symbol. -/
lemma visitVar_eq (ed : s.Edited) :
    visitVar s (s.vars.name? e) e rest results = .ok (.more ⟨rest, s.readVar e :: results⟩) := by
  cases hn : s.vars.name? e with
  | none => rfl
  | some k =>
    obtain ⟨n, hk⟩ := ed.known.2 hn
    simp only [visitVar, Option.map_some, hk]

/-- A visit to a record with a known signature goes on with its arguments. -/
lemma step_visit_record (hd : s.heap.deref p = .ok (e, .rcd q))
    (hq : s.heap.read? q = some (.sig f)) (hn : s.symbols.name? f.name = some n) :
    step s ⟨.visit p :: rest, results⟩ =
      .ok (.more ⟨visits (q + 1) f.arity (.record q :: rest), results⟩) := by
  simp only [step, visit, hd, visitRecord, hq, hn]

/-- A visit to a list pair goes on with its two parts. -/
lemma step_visit_pair (hd : s.heap.deref p = .ok (e, .lst q)) :
    step s ⟨.visit p :: rest, results⟩ =
      .ok (.more ⟨.visit q :: .visit (q + 1) :: .pair :: rest, results⟩) := by
  simp only [step, visit, hd]

/-- A visit gives what the recursion from left to right gives, without misuse. -/
theorem visits_of_readsAs (ed : s.Edited) (ra : s.ReadsAs p result) : Visits s p result := by
  induction ra with
  | unresolved hd => exact .of_fault fun rest results => by simp only [visit, hd]
  | var hd => exact .of_term fun rest results => by simp only [visit, hd, visitVar_eq ed]
  | int hd => exact .of_term fun rest results => by simp only [visit, hd]
  | nil hd => exact .of_term fun rest results => by simp only [visit, hd]
  | sym hd hk => exact .of_term fun rest results => by simp only [visit, hd, hk]
  | unknownSymbol hd hk => exact .of_fault fun rest results => by simp only [visit, hd, hk]
  | signature hd => exact .of_fault fun rest results => by simp only [visit, hd]
  | noTarget hd hq => exact .of_fault fun rest results => by simp only [visit, hd, visitRecord, hq]
  | @notSignature p e q c hd hq ns =>
    refine .of_fault fun rest results => ?_
    cases c with
    | sig f => exact absurd rfl (ns f)
    | _ => simp only [visit, hd, visitRecord, hq]
  | unknownName hd hq hn =>
    exact .of_fault fun rest results => by simp only [visit, hd, visitRecord, hq, hn]
  | @record p e q f n args hd hq hn len _ ih =>
    intro rest results out cont
    apply Runs.more (step_visit_record hd hq hn)
    rw [← len]
    exact runs_visits ih (.more (step_record hq hn len) cont)
  | @argument p e q f n before err hd hq hn lt _ _ ih ihf =>
    intro rest results out cont
    apply Runs.more (step_visit_record hd hq hn)
    -- the visits after the faulty argument stay behind on the stack of frames
    obtain ⟨m, hm⟩ := Nat.exists_eq_add_of_lt lt
    rw [hm, Nat.add_assoc, visits_add, visits_succ]
    exact runs_visits ih (ihf _ _ out cont)
  | cons hd _ _ ih₁ ih₂ =>
    intro rest results out cont
    exact .more (step_visit_pair hd) (ih₁ _ _ out (ih₂ _ _ out (.more rfl cont)))
  | car hd _ ih =>
    intro rest results out cont
    exact .more (step_visit_pair hd) (ih _ _ out cont)
  | cdr hd _ _ ih₁ ih₂ =>
    intro rest results out cont
    exact .more (step_visit_pair hd) (ih₁ _ _ out (ih₂ _ _ out cont))

/-- Whatever an earlier reading left behind, the reader comes to what the recursion gives. -/
theorem runs_of_readsAs (ed : s.Edited) (ra : s.ReadsAs p result) (old : Reader) :
    Runs s (old.start p) result := by
  apply visits_of_readsAs ed ra
  cases result with
  | error err => rfl
  | ok t => exact .done rfl

/-- A reader comes to one result only. -/
lemma Runs.unique {r : Reader} {result' : Except ReadError Term} (rn : Runs s r result)
    (rn' : Runs s r result') : result = result' := by
  induction rn with
  | done st =>
    cases rn' with
    | done st' =>
      cases st.symm.trans st'
      rfl
    | more st' => cases st.symm.trans st'
  | more st _ ih =>
    cases rn' with
    | done st' => cases st.symm.trans st'
    | more st' rn' =>
      cases st.symm.trans st'
      exact ih rn'

end TwoStacks

/-! ### The reader of terms -/

namespace Store

variable {s : Store} {p e q a : Addr} {c : Cell} {part : Addr → Except ReadError Term} {m d : Nat}

/-- A row is read to its end or up to its first fault. -/
lemma mapM_range'_cases (part : Addr → Except ReadError Term) (a m : Nat) :
    (∃ ts : List Term, ts.length = m ∧ (∀ i (hi : i < ts.length), part (a + i) = .ok ts[i]) ∧
      (List.range' a m).mapM part = .ok ts) ∨
    ∃ (before : List Term) (err : ReadError), before.length < m ∧
      (∀ i (hi : i < before.length), part (a + i) = .ok before[i]) ∧
      part (a + before.length) = .error err ∧ (List.range' a m).mapM part = .error err := by
  induction m generalizing a with
  | zero => exact .inl ⟨[], rfl, nofun, rfl⟩
  | succ m ih =>
    rw [List.range'_succ, List.mapM_cons]
    cases ha : part a with
    | error err => exact .inr ⟨[], err, Nat.succ_pos _, nofun, ha, rfl⟩
    | ok t =>
      have next : ∀ {ts : List Term}, (∀ i (hi : i < ts.length), part (a + 1 + i) = .ok ts[i]) →
          ∀ i (hi : i < (t :: ts).length), part (a + i) = .ok (t :: ts)[i] := by
        intro ts row i hi
        cases i with
        | zero => exact ha
        | succ i =>
          have hr := row i (Nat.lt_of_succ_lt_succ hi)
          rw [Nat.add_assoc, Nat.add_comm 1 i] at hr
          exact hr
      rcases ih (a + 1) with ⟨ts, len, row, hm⟩ | ⟨before, err, lt, row, fault, hm⟩
      · refine .inl ⟨t :: ts, congrArg (· + 1) len, next row, ?_⟩
        rw [hm]
        rfl
      · refine .inr ⟨t :: before, err, Nat.succ_lt_succ lt, next row, ?_, ?_⟩
        · rw [List.length_cons, Nat.add_comm before.length 1, ← Nat.add_assoc]
          exact fault
        · rw [hm]
          rfl

/-- A record reads as the recursion says if its arguments do. -/
lemma readsAs_record {f : Signature} {n : String} (hd : s.heap.deref p = .ok (e, .rcd q))
    (hq : s.heap.read? q = some (.sig f)) (hn : s.symbols.name? f.name = some n)
    (parts : ∀ i < f.arity, s.ReadsAs (q + 1 + i) (part (q + 1 + i))) :
    s.ReadsAs p (((List.range' (q + 1) f.arity).mapM part).map (.record n)) := by
  rcases mapM_range'_cases part (q + 1) f.arity with
    ⟨ts, len, row, hm⟩ | ⟨before, err, lt, row, fault, hm⟩
  · rw [hm]
    apply ReadsAs.record hd hq hn len
    intro i hi
    rw [← row i hi]
    exact parts i (len ▸ hi)
  · rw [hm]
    refine ReadsAs.argument hd hq hn lt ?_ (fault ▸ parts _ lt)
    intro i hi
    rw [← row i hi]
    exact parts i (Nat.lt_trans hi lt)

/-- An address reads as the recursion says if the parts of its term do. -/
lemma readsAs_readLevel (parts : ∀ q, s.heap.Part p q → s.ReadsAs q (part q)) :
    s.ReadsAs p (s.readLevel (some part) p) := by
  rw [readLevel]
  cases hd : s.heap.deref p with
  | error bad => exact .unresolved hd
  | ok found =>
    obtain ⟨e, c⟩ := found
    cases c with
    | ref q => exact .var hd
    | int v => exact .int hd
    | nil => exact .nil hd
    | sig f => exact .signature hd
    | sym k =>
      simp only [readCell]
      cases hk : s.symbols.name? k with
      | none => exact .unknownSymbol hd hk
      | some n => exact .sym hd hk
    | rcd q =>
      simp only [readCell]
      cases hq : s.heap.read? q with
      | none => exact .noTarget hd hq
      | some c =>
        cases c with
        | sig f =>
          cases hn : s.symbols.name? f.name with
          | none =>
            simp only [hn]
            exact .unknownName hd hq hn
          | some n =>
            simp only [hn]
            apply readsAs_record hd hq hn
            exact fun i hi => parts _ (Heap.part_of_record hd hq hi)
        | _ => exact .notSignature hd hq (by simp)
    | lst q =>
      obtain ⟨car, cdr⟩ := Heap.part_of_pair hd
      have first := parts q car
      have second := parts (q + 1) cdr
      simp only [readCell]
      cases hcar : part q with
      | error err => exact .car hd (hcar ▸ first)
      | ok car =>
        rw [hcar] at first
        cases hcdr : part (q + 1) with
        | error err => exact .cdr hd first (hcdr ▸ second)
        | ok cdr => exact .cons hd first (hcdr ▸ second)

/-- Where nothing is a part of itself, an address is read as the recursion says. -/
theorem readsAs_readTerm (ac : s.heap.Acyclic p) : s.ReadsAs p (s.readTerm p) := by
  have dp := ac.depthLe
  generalize s.heap.size = d at dp
  induction d generalizing p with
  | zero =>
    rw [readTerm_eq ac]
    exact readsAs_readLevel fun q pt => absurd pt.compound dp
  | succ d ih =>
    rw [readTerm_eq ac]
    exact readsAs_readLevel fun q pt => ih (ac.step pt) (dp q pt)

/-- **Reading an untrusted heap is safe and exact.** With any cells on the heap, an address below
which nothing is a part of itself reads as the recursion from left to right says and as nothing
else: as a term, or as the fault of the first bad cell. The reader with two stacks comes to the same
result without misusing them, whatever an earlier reading left there. -/
theorem readTerm_exact (ed : s.Edited) (ac : s.heap.Acyclic p) :
    (∀ result, s.ReadsAs p result ↔ s.readTerm p = result) ∧
    ∀ old : TwoStacks.Reader, TwoStacks.Runs s (old.start p) (s.readTerm p) := by
  have exact := readsAs_readTerm ac
  refine ⟨?_, TwoStacks.runs_of_readsAs ed exact⟩
  intro result
  constructor
  · intro ra
    have runs := fun {r} (ra : s.ReadsAs p r) => TwoStacks.runs_of_readsAs ed ra ⟨[], []⟩
    exact (runs exact).unique (runs ra)
  · rintro rfl
    exact exact

/-- The record `f(7, [[] | r], q)`, where `r` points at an integer instead of a signature and `q` is
a reference to an address without a cell. -/
def damagedRecord : Store :=
  { ((Store.empty 8).intern "f").2 with
    heap := ⟨⟨#[.rcd 2, .sig ⟨⟨0⟩, 3, by decide⟩, .int 7, .lst 6, .ref 0, .nil, .rcd 3], [], 8⟩⟩ }

/-- Of the two faults in the record the one that comes first is found, by a reader whose stacks are
not empty. -/
theorem readTerm_exact_damagedRecord :
    damagedRecord.ReadsAs 1 (.error (.notSignature 3)) ∧
    damagedRecord.ReadsAs 5 (.error (.badCell 0)) ∧
    TwoStacks.Runs damagedRecord (TwoStacks.Reader.start ⟨[.pair], [.nil]⟩ 1)
      (.error (.notSignature 3)) := by
  have ed : damagedRecord.Edited := .heap _ (.intern "f" (.fresh 8))
  have ac := Heap.acyclic_of_allFinite (h := damagedRecord.heap) (by decide)
  have first : damagedRecord.readTerm 1 = .error (.notSignature 3) := by cbv
  have second : damagedRecord.readTerm 5 = .error (.badCell 0) := by cbv
  obtain ⟨reads, runs⟩ := readTerm_exact ed (ac 1)
  exact ⟨(reads _).mpr first, ((readTerm_exact ed (ac 5)).1 _).mpr second, first ▸ runs _⟩

end Store
end TermHeap
