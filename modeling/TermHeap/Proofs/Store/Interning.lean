import TermHeap.Proofs.FirstUse
import TermHeap.Proofs.Store.LevelOrder

/-!
# The texts that are interned

A symbol table holds the texts that were interned so far, each once, in the order of their first use
(`Symbols.Records`), and the symbol of a text is its place there. To lay a term is to intern the
texts of its nodes level by level (`Term.texts`, `addTerm_symbols`): first that of the root if it
has no parts, then for each node with parts the name of a record and the texts of those parts that
have no parts themselves.
-/

namespace TermHeap

/-! ### Symbol tables -/

namespace Symbols

/-- Intern texts one after the other. -/
def internAll (s : Symbols) (texts : List String) : Symbols :=
  texts.foldl (fun s n => (s.intern n).2) s

/-- The table holds the texts in the order of their first use. -/
def Records (s : Symbols) (texts : List String) : Prop := s.names.toList = texts.eraseDups

variable {s : Symbols} {k : Symbol} {n m : String} {texts : List String}

/-- Texts are interned in turn. -/
lemma internAll_append (s : Symbols) (texts more : List String) :
    s.internAll (texts ++ more) = (s.internAll texts).internAll more := List.foldl_append

/-- The symbols that were there keep their texts. -/
lemma extends_internAll (s : Symbols) (texts : List String) : s.Extends (s.internAll texts) := by
  induction texts generalizing s with
  | nil => exact .refl s
  | cons n texts ih => exact (s.extends_intern n).trans (ih _)

/-- A symbol is the place of its text. -/
lemma name?_eq_getElem? (s : Symbols) (k : Symbol) : s.name? k = s.names.toList[k.index]? :=
  (Array.getElem?_toList ..).symm

/-- No symbol is found exactly for a text that is not in the table. -/
lemma find?_eq_none : s.find? n = none ↔ n ∉ s.names.toList := by
  rw [find?, Option.map_eq_none_iff, Array.findIdx?_eq_none_iff, Array.mem_toList_iff]
  simp only [beq_eq_false_iff_ne]
  exact ⟨fun ne mem => ne n mem rfl, fun new m mem e => new (e ▸ mem)⟩

/-- A text of the table is given its symbol, and nothing is added. -/
lemma intern_of_find? (hf : s.find? n = some k) : s.intern n = (k, s) := by
  rw [intern, hf]

/-- A text with a symbol is in the table. -/
lemma mem_of_find? (hf : s.find? n = some k) : n ∈ s.names.toList := by
  by_contra new
  rw [find?_eq_none.mpr new] at hf
  cases hf

/-- A text is added if it is new. -/
lemma names_intern (s : Symbols) (n : String) : (s.intern n).2.names.toList =
    if n ∈ s.names.toList then s.names.toList else s.names.toList ++ [n] := by
  rw [intern]
  split
  · rename_i hf
    rw [if_pos (mem_of_find? hf)]
  · rename_i hf
    rw [if_neg (find?_eq_none.mp hf), Array.toList_push]

namespace Records

/-- The empty table holds no texts. -/
lemma empty : Symbols.empty.Records [] := rfl

/-- The table holds one text more after it was interned. -/
lemma intern (rc : s.Records texts) (n : String) : (s.intern n).2.Records (texts ++ [n]) := by
  rw [Records, names_intern, eraseDups_concat, rc]
  simp only [List.mem_eraseDups]

/-- The table holds all texts that were interned in turn. -/
lemma internAll (rc : s.Records texts) (more : List String) :
    (s.internAll more).Records (texts ++ more) := by
  induction more generalizing s texts with
  | nil => rwa [List.append_nil]
  | cons n more ih =>
    rw [List.append_cons]
    exact ih (rc.intern n)

/-- No text is in the table twice. -/
lemma nodup (rc : s.Records texts) : s.names.toList.Nodup := rc ▸ nodup_eraseDups texts

/-- The texts in the table and their symbols determine each other. -/
lemma find?_eq_some (rc : s.Records texts) : s.find? n = some k ↔ s.name? k = some n := by
  refine ⟨name?_of_find?, fun hk => ?_⟩
  cases hf : s.find? n with
  | none =>
    rw [name?_eq_getElem?] at hk
    exact absurd (List.mem_of_getElem? hk) (find?_eq_none.mp hf)
  | some k' =>
    have hk' := name?_of_find? hf
    rw [name?_eq_getElem?] at hk hk'
    obtain ⟨lt, e⟩ := List.getElem?_eq_some_iff.mp hk
    obtain ⟨lt', e'⟩ := List.getElem?_eq_some_iff.mp hk'
    have same := (rc.nodup.getElem_inj_iff).mp (e'.trans e.symm)
    exact congrArg (fun i => some (Symbol.mk i)) same

/-- A text is given the place at which it stands among all texts, itself included. -/
lemma index_intern (rc : s.Records texts) (n : String) :
    (s.intern n).1.index = (texts ++ [n]).eraseDups.idxOf n := by
  have hk := name?_of_find? (s.find?_intern n)
  rw [name?_eq_getElem?, rc.intern n] at hk
  obtain ⟨lt, e⟩ := List.getElem?_eq_some_iff.mp hk
  have place := (nodup_eraseDups (texts ++ [n])).idxOf_getElem _ lt
  rw [e] at place
  exact place.symm

/-- Of the texts that are interned those that are new are added, each once. -/
lemma names_internAll (rc : s.Records texts) (more : List String) :
    (s.internAll more).names.toList =
      s.names.toList ++ (more.filter (· ∉ s.names.toList)).eraseDups := by
  rw [rc.internAll more, List.eraseDups_append, rc, List.removeAll]
  simp only [List.mem_eraseDups, List.elem_eq_contains, List.contains_eq_mem, decide_not]

end Records

/-- No other text is given the symbol of a text that is in the table. -/
lemma intern_eq_iff (hf : s.find? n = some k) : (s.intern m).1 = k ↔ m = n := by
  constructor
  · rintro rfl
    exact name_unique (s.find?_intern m) ((s.extends_intern m).find hf)
  · rintro rfl
    rw [intern_of_find? hf]

/-- A text that was interned is found at the same symbol, whatever is interned after it. -/
lemma find?_internAll (s : Symbols) (n : String) (more : List String) :
    ((s.intern n).2.internAll more).find? n = some (s.intern n).1 :=
  (extends_internAll _ more).find (s.find?_intern n)

end Symbols

/-! ### Terms -/

namespace Term

/-- What is interned for the cell of a term: an atom or the name of a variable. -/
def cellTexts : Term → List String
  | .sym name => [name]
  | .var name => if name.isEmpty then [] else [name]
  | .int _ | .nil | .record _ _ | .cons _ _ => []

/-- What is interned for the name of a record. -/
def headTexts : Term → List String
  | .record name _ => [name]
  | .int _ | .sym _ | .var _ | .nil | .cons _ _ => []

/-- What is interned when the parts of a term are laid. -/
def partTexts (t : Term) : List String := t.headTexts ++ t.args.flatMap cellTexts

/-- What is interned when the parts of the terms in a queue are laid, which join the queue. -/
def queueTexts (queue : List Term) : List String :=
  match queue with
  | [] => []
  | t :: queue => t.partTexts ++ queueTexts (queue ++ t.args)
termination_by sizeAll queue
decreasing_by
  have := t.sizeAll_args_lt
  rw [sizeAll_append, sizeAll]
  omega

/-- What is interned when a term is laid, in this order. -/
def texts (t : Term) : List String := t.cellTexts ++ queueTexts [t]

mutual

/-- The names of the atoms, variables and records in a term, from left to right. -/
def names : Term → List String
  | .sym name => [name]
  | .var name => if name.isEmpty then [] else [name]
  | .record name args => name :: namesAll args
  | .cons car cdr => car.names ++ cdr.names
  | .int _ | .nil => []

/-- The names in several terms. -/
def namesAll : List Term → List String
  | [] => []
  | t :: ts => t.names ++ namesAll ts

end

variable {t : Term} {ts us : List Term} {n : String} {p : Addr}

/-- The names in two rows of terms follow each other. -/
lemma namesAll_append (ts us : List Term) : namesAll (ts ++ us) = namesAll ts ++ namesAll us := by
  induction ts with
  | nil => rfl
  | cons t ts ih => rw [List.cons_append, namesAll, namesAll, ih, List.append_assoc]

/-- A name in a term is that of its cell, that of the record, or one in its parts. -/
lemma mem_names : n ∈ t.names ↔ n ∈ t.cellTexts ∨ n ∈ t.headTexts ∨ n ∈ namesAll t.args := by
  cases t <;> simp [names, cellTexts, headTexts, args, namesAll]

/-- Working off a queue interns the names in its terms, but for those of their cells. -/
lemma mem_queueTexts (queue : List Term) :
    n ∈ queueTexts queue ∨ n ∈ queue.flatMap cellTexts ↔ n ∈ namesAll queue := by
  fun_induction queueTexts queue with
  | case1 => simp [namesAll]
  | case2 t queue ih =>
    rw [namesAll_append, List.flatMap_append] at ih
    rw [namesAll, List.flatMap_cons, partTexts]
    simp only [List.mem_append] at ih ⊢
    rw [mem_names]
    tauto

/-- A term is laid by interning the names that occur in it. -/
lemma mem_texts : n ∈ t.texts ↔ n ∈ t.names := by
  have queue := mem_queueTexts (n := n) [t]
  rw [List.flatMap_singleton, namesAll, namesAll, List.append_nil] at queue
  rw [texts, List.mem_append, or_comm, queue]

/-- For a term without parts nothing more is interned. -/
lemma parts_of_pending?_eq_none (leaf : t.pending? p = none) : t.partTexts = [] ∧ t.args = [] := by
  cases t with
  | record n args => cases leaf
  | cons car cdr => cases leaf
  | _ => exact ⟨rfl, rfl⟩

/-- A term without parts adds nothing to a queue. -/
lemma queueTexts_leaf (leaf : t.pending? p = none) (ts us : List Term) :
    queueTexts (ts ++ t :: us) = queueTexts (ts ++ us) := by
  obtain ⟨none, no⟩ := parts_of_pending?_eq_none leaf
  -- on the size of the queue: parts that join it are smaller than the term they take the place of
  induction h : sizeAll (ts ++ us) using Nat.strongRecOn generalizing ts us with
  | ind size ih =>
    cases ts with
    | nil =>
      rw [List.nil_append, queueTexts, none, no, List.append_nil]
      rfl
    | cons u ts =>
      have lt := u.sizeAll_args_lt
      rw [List.cons_append, queueTexts, List.cons_append, queueTexts, List.append_assoc,
        List.cons_append, ih _ _ ts (us ++ u.args) rfl, List.append_assoc]
      rw [← h]
      simp only [List.cons_append, sizeAll, sizeAll_append]
      omega

/-- Of a row that joins a queue only the terms with parts matter. -/
lemma queueTexts_row (ts us : List Term) (p : Addr) :
    queueTexts (ts ++ (Pending.row p us).map Pending.term) = queueTexts (ts ++ us) := by
  induction us generalizing ts p with
  | nil => rfl
  | cons u us ih =>
    rw [Pending.row]
    cases hx : u.pending? p with
    | none =>
      rw [queueTexts_leaf hx, ← ih ts (p + 1)]
      rfl
    | some x =>
      -- the term stays in the queue, and the rest of the row comes behind it
      have same := ih (ts ++ [u]) (p + 1)
      rw [List.append_assoc, List.append_assoc] at same
      rw [← (Pending.pending?_eq_some hx).2] at same ⊢
      exact same

end Term

/-! ### Stores -/

namespace Store

variable {s s' : Store} {t : Term} {x : Pending} {root : Addr} {queue queue' : List Pending}

/-- A variable is laid by interning its name. -/
lemma pushVar_symbols (s : Store) (n : String) :
    (s.pushVar n).2.symbols = s.symbols.internAll [n] := by
  cases hf : s.findVar? n with
  | some p =>
    obtain ⟨k, hk, _⟩ := findVar?_eq_some.mp hf
    rw [pushVar, hf]
    exact (congrArg Prod.snd (Symbols.intern_of_find? hk)).symm
  | none =>
    rw [pushVar_new hf]
    rfl

/-- A cell is laid by interning what it shows. -/
lemma place_symbols (s : Store) (queue : List Pending) (t : Term) :
    (s.place queue t).1.symbols = s.symbols.internAll t.cellTexts := by
  cases t with
  | var n =>
    rw [place, Term.cellTexts]
    split
    · rfl
    · exact s.pushVar_symbols n
  | _ => rfl

/-- A row of cells is laid by interning what they show. -/
lemma placeAll_symbols (s : Store) (queue : List Pending) (ts : List Term) :
    (s.placeAll queue ts).1.symbols = s.symbols.internAll (ts.flatMap Term.cellTexts) := by
  induction ts generalizing s queue with
  | nil => rfl
  | cons t ts ih =>
    rw [placeAll]
    dsimp only
    rw [ih, place_symbols, List.flatMap_cons, Symbols.internAll_append]

/-- In front of the parts of a record its name is interned. -/
lemma Opens.symbols (op : s.Opens x s') : s'.symbols = s.symbols.internAll x.term.headTexts := by
  cases op with
  | record => rfl
  | pair => rfl

/-- Filling in a queued term interns its name and the texts of its parts. -/
lemma fill_symbols (hf : (s.fill queue x).1 = .ok s') :
    s'.symbols = s.symbols.internAll x.term.partTexts := by
  obtain ⟨s₁, op, _, hw⟩ := fill_eq_ok hf
  obtain ⟨_, rfl⟩ := write_eq_ok.mp hw
  have placed := placeAll_symbols s₁ queue x.term.args
  exact placed.trans (op.symbols ▸ (Symbols.internAll_append ..).symm)

/-- A queue is worked off by interning the texts of its terms. -/
lemma drain_symbols {front back : List Pending} (hd : s.drain front back = .ok s') :
    s'.symbols =
      s.symbols.internAll (Term.queueTexts ((front ++ back.reverse).map Pending.term)) := by
  fun_induction drain s front back with
  | case1 s =>
    cases hd
    rw [List.reverse_nil, List.append_nil, List.map_nil, Term.queueTexts]
    rfl
  | case2 s b bs ih =>
    rw [List.reverse_nil, List.append_nil] at ih
    exact ih hd
  | case3 s x front back filled e hf => cases hd
  | case4 s x front back filled s₁ hf ih =>
    -- the parts are queued in front of `back`, so they come behind all that waits
    rw [ih hd, fill_symbols hf, (fill_queue hf).1, ← Symbols.internAll_append, List.cons_append,
      List.map_cons, Term.queueTexts, List.reverse_append, List.reverse_reverse,
      ← List.append_assoc, List.map_append, Term.queueTexts_row]

/-- To lay a term is to intern its texts. -/
theorem addTerm_symbols (ha : s.addTerm t = .ok (root, s')) :
    s'.symbols = s.symbols.internAll t.texts := by
  have placed := place_symbols s [] t
  have queued := place_queue s [] t
  have row : (Pending.row s.heap.top [t]) = (t.pending? s.heap.top).toList := List.append_nil _
  simp only [addTerm] at ha
  split at ha
  · cases ha
  · rename_i s₁ hd
    cases ha
    rw [drain_symbols hd, placed, queued, ← Symbols.internAll_append, List.reverse_nil,
      List.append_nil, List.append_nil, ← row]
    have alone := Term.queueTexts_row [] [t] s.heap.top
    rw [List.nil_append, List.nil_append] at alone
    rw [alone, Term.texts]

end Store
end TermHeap
