import Mathlib
import TermHeap.Proofs.Store.Editing
import TermHeap.Proofs.Store.Interning
import TermHeap.Proofs.Store.RoundTrip
import TermHeap.Proofs.Store.Session

/-!
# Symbols are stable

Whatever is done with a store, its symbol table holds the texts that were interned in the order of
their first use. An operation changes the table as if it interned its texts one after the other
(`operate_symbols`), so a run of operations interns all of theirs (`operateAll_records`). Therefore
texts and symbols determine each other, and a text keeps its symbol for ever
(`operateAll_interns`).
-/

namespace TermHeap

/-! ### Operations -/

namespace Store

/-- What can be asked about a store. -/
inductive Query where
  | cell (p : Addr)
  | resolve (p : Addr)
  | symbolName (k : Symbol)
  | symbol (name : String)
  | var (name : String)
  | varCell (name : String)
  | varName (p : Addr)
  | term (p : Addr)
  | text (p : Addr)
  | cellText (c : Cell)
  | cells (first stop : Addr)
  | status

/-- What is answered. -/
inductive Reply where
  | cell (c : Cell)
  | found (p : Addr) (c : Cell)
  | text (text : String)
  | symbol? (k : Option Symbol)
  | addr? (p : Option Addr)
  | cell? (c : Option Cell)
  | term? (t : Except ReadError Term)

/-- Answer a question about a store. -/
def ask (s : Store) : Query → Except Fault Reply
  | .cell p => (s.read p).map .cell
  | .resolve p => (s.resolve p).map fun (q, c) => .found q c
  | .symbolName k => (s.symbols.name k).map .text
  | .symbol name => .ok (.symbol? (s.symbols.find? name))
  | .var name => .ok (.addr? (s.findVar? name))
  | .varCell name => .ok (.cell? (s.varCell? name))
  | .varName p => .ok (.text (s.varName p))
  | .term p => .ok (.term? (s.readTerm p))
  | .text p => (s.render p).map .text
  | .cellText c => (s.cellText c).map .text
  | .cells first stop => (s.renderRaw first stop).map .text
  | .status => .ok (.text s.status)

end Store

/-- What can be done in a session and to its store. -/
inductive Operation where
  /-- An action, whether it is allowed or not, at a verbosity. -/
  | perform (v : Int) (act : Action)
  | edit (e : Edit)
  /-- Bind a variable and report it at a verbosity. -/
  | bind (v : Int) (p target : Addr)
  | ask (q : Store.Query)

/-- The texts that an edit interns. -/
def Edit.texts : Edit → List String
  | .intern name | .internSignature name _ | .pushVar name | .assignName _ name => [name]
  | .push _ | .write _ _ | .bind _ _ | .pushFresh => []

/-- The texts that an action interns. -/
def Action.texts : Action → List String
  | .addTerm t => t.texts
  | .pushVar name | .intern name | .internSignature name _ => [name]
  | .pushFresh | .unify _ _ _ _ _ | .setup _ _ _ | .step _ _ => []

/-- The texts that an operation interns. -/
def Operation.texts : Operation → List String
  | .perform _ act => act.texts
  | .edit e => e.texts
  | .bind _ _ _ | .ask _ => []

namespace Session

/-- Carry out an operation. -/
def operate (S : Session) : Operation → Except Fault Session
  | .perform v act => S.perform v act
  | .edit e =>
    match S.store.edit e with
    | .error f => .error f
    | .ok store => .ok { S with store }
  | .bind v p target =>
    match S.store.bindLogged v p target S.log with
    | .error f => .error f
    | .ok (log, store) => .ok { S with store, log }
  | .ask q =>
    match S.store.ask q with
    | .error f => .error f
    | .ok _ => .ok S

/-- Carry out operations one after the other. -/
def operateAll (S : Session) : List Operation → Except Fault Session
  | [] => .ok S
  | op :: ops =>
    match S.operate op with
    | .error e => .error e
    | .ok S => S.operateAll ops

end Session

/-! ### One operation -/

namespace Store

variable {s s' : Store} {e : Edit} {v : Int} {log log' : Log} {p target : Addr}

/-- An edit interns its texts. -/
lemma edit_symbols (he : s.edit e = .ok s') : s'.symbols = s.symbols.internAll e.texts := by
  cases e with
  | push c => cases he; rfl
  | write p c =>
    rw [(write_eq_ok.mp he).2]
    rfl
  | bind p target =>
    rw [(write_eq_ok.mp he).2]
    rfl
  | intern n => cases he; rfl
  | internSignature n arity =>
    obtain ⟨f, hi⟩ := exists_signature_of_edit he
    rw [(internSignature_eq_ok hi).1]
    rfl
  | pushFresh => cases he; rfl
  | pushVar n =>
    cases he
    exact s.pushVar_symbols n
  | assignName p n => cases he; rfl

/-- A variable that is bound with a report is bound. -/
lemma bind_of_logged (hb : s.bindLogged v p target log = .ok (log', s')) :
    s.bind p target = .ok s' := by
  obtain ⟨_, _, hb⟩ := exists_of_bind_eq_ok hb
  obtain ⟨_, hs, hb⟩ := exists_of_bind_eq_ok hb
  cases hb
  exact hs

end Store

namespace Session

variable {S S' : Session} {v : Int} {act : Action} {op : Operation} {ops : List Operation}
  {texts : List String}

/-- An action interns its texts. -/
lemma perform_symbols (pf : S.perform v act = .ok S') :
    S'.store.symbols = S.store.symbols.internAll act.texts := by
  cases act with
  | addTerm t =>
    rw [perform] at pf
    split at pf
    · cases pf
    · rename_i ha
      cases pf
      exact Store.addTerm_symbols (Store.addTerm_of_logged ha)
  | pushVar n =>
    cases pf
    exact S.store.pushVar_symbols n
  | pushFresh => cases pf; rfl
  | intern n => cases pf; rfl
  | internSignature n arity =>
    rw [perform] at pf
    split at pf
    · cases pf
    · rename_i hi
      cases pf
      rw [(Store.internSignature_eq_ok hi).1]
      rfl
  | unify i order a b fuel =>
    rw [perform] at pf
    split at pf
    · cases pf
    · rename_i rn
      cases pf
      exact (Unifier.runLogged_run rn).2.1
  | setup i a b => cases pf; rfl
  | step i order =>
    rw [perform] at pf
    split at pf
    · cases pf
    · rename_i st
      cases pf
      exact (Unifier.stepLogged_step st).2.1

/-- An operation interns its texts and changes the symbol table in no other way. -/
theorem operate_symbols (so : S.operate op = .ok S') :
    S'.store.symbols = S.store.symbols.internAll op.texts := by
  cases op with
  | perform v act => exact perform_symbols so
  | edit e =>
    rw [operate] at so
    split at so
    · cases so
    · rename_i he
      cases so
      exact Store.edit_symbols he
  | bind v p target =>
    rw [operate] at so
    split at so
    · cases so
    · rename_i hb
      cases so
      rw [(Store.write_eq_ok.mp (Store.bind_of_logged hb)).2]
      rfl
  | ask q =>
    rw [operate] at so
    split at so
    · cases so
    · cases so
      rfl

/-! ### All operations -/

/-- Operations in turn intern all of their texts. -/
theorem operateAll_symbols (run : S.operateAll ops = .ok S') :
    S'.store.symbols = S.store.symbols.internAll (ops.flatMap Operation.texts) := by
  induction ops generalizing S with
  | nil =>
    cases run
    rfl
  | cons op ops ih =>
    rw [operateAll] at run
    split at run
    · cases run
    · rename_i S₁ so
      rw [ih run, operate_symbols so, List.flatMap_cons, Symbols.internAll_append]

/-- The table holds the texts of all operations so far. -/
lemma operateAll_records {capacity : Nat} (run : (fresh capacity).operateAll ops = .ok S) :
    S.store.symbols.Records (ops.flatMap Operation.texts) := by
  rw [operateAll_symbols run]
  exact Symbols.Records.empty.internAll _

/-- **Interning is a stable bijection**, whatever operations were carried out. The symbol table
holds the texts that they interned, all different, in the order of their first use, and a text is
found under a symbol exactly if it is the name of the symbol. A text that is interned is given the
place at which it stands in this order. Whatever is done from then on, the symbol has this text as
its name, it is found for this text, and it is given to no other text. An operation adds those of
its texts that are new, each once, so a term that is laid adds the new ones of the names in it. -/
theorem operateAll_interns (capacity : Nat) (ops : List Operation)
    (run : (fresh capacity).operateAll ops = .ok S) :
    (S.store.symbols.names.toList = (ops.flatMap Operation.texts).eraseDups ∧
      S.store.symbols.names.toList.Nodup ∧
      ∀ a k, S.store.symbols.find? a = some k ↔ S.store.symbols.name k = .ok a) ∧
    (∀ a, (S.store.intern a).1.index = (ops.flatMap Operation.texts ++ [a]).eraseDups.idxOf a ∧
      ∀ later S', operateAll { S with store := (S.store.intern a).2 } later = .ok S' →
        S'.store.symbols.name (S.store.intern a).1 = .ok a ∧
        S'.store.symbols.find? a = some (S.store.intern a).1 ∧
        ∀ b, (S'.store.intern b).1 = (S.store.intern a).1 ↔ b = a) ∧
    (∀ op S', S.operate op = .ok S' → S'.store.symbols.names.toList =
      S.store.symbols.names.toList ++
        (op.texts.filter (· ∉ S.store.symbols.names.toList)).eraseDups) ∧
    ∀ v t S', S.operate (.perform v (.addTerm t)) = .ok S' →
      ∃ new, S'.store.symbols.names.toList = S.store.symbols.names.toList ++ new ∧ new.Nodup ∧
        ∀ n, n ∈ new ↔ n ∈ t.names ∧ n ∉ S.store.symbols.names.toList := by
  have rc := operateAll_records run
  have added : ∀ {op S'}, S.operate op = .ok S' → S'.store.symbols.names.toList =
      S.store.symbols.names.toList ++
        (op.texts.filter (· ∉ S.store.symbols.names.toList)).eraseDups := by
    intro op S' so
    rw [operate_symbols so]
    exact rc.names_internAll op.texts
  refine ⟨⟨rc, rc.nodup, ?_⟩, ?_, fun op S' => added, ?_⟩
  · intro a k
    rw [rc.find?_eq_some, Symbols.name_eq_ok]
  · intro a
    refine ⟨rc.index_intern a, ?_⟩
    intro later S' run'
    have found : S'.store.symbols.find? a = some (S.store.intern a).1 := by
      rw [operateAll_symbols run']
      exact S.store.symbols.find?_internAll a _
    refine ⟨Symbols.name_eq_ok.mpr (Symbols.name?_of_find? found), found, ?_⟩
    intro b
    exact Symbols.intern_eq_iff found
  · intro v t S' so
    refine ⟨_, added so, nodup_eraseDups _, ?_⟩
    intro n
    rw [List.mem_eraseDups, List.mem_filter, decide_eq_true_iff]
    exact and_congr_left' Term.mem_texts

/-- A variable and an atom have the name `a`. The name `Y` is on a higher level of the term than
those of the record `g` and of its arguments, so it comes before them. -/
def sharedNames : List Operation :=
  [.perform 0 (.pushVar "a"), .ask (.symbol "g"),
    .perform 1 (.addTerm (.record "f" [.record "g" [.sym "a", .sym "b"], .var "Y", .anonymous])),
    .edit (.assignName 1 "Z"), .perform 0 (.unify 0 .lastToFirst 1 2 3)]

/-- The names come in this order, and `Y` keeps its symbol whatever is done later. -/
theorem operateAll_interns_sharedNames :
    ∃ S, (fresh 8).operateAll sharedNames = .ok S ∧
      S.store.symbols.names.toList = ["a", "f", "Y", "g", "b", "Z"] ∧
      ∀ later S', operateAll { S with store := (S.store.intern "Y").2 } later = .ok S' →
        S'.store.symbols.name ⟨2⟩ = .ok "Y" ∧ ∀ b, (S'.store.intern b).1 = ⟨2⟩ ↔ b = "Y" := by
  have values : ((fresh 8).operateAll sharedNames).map (fun S => (S.store.intern "Y").1) =
      .ok ⟨2⟩ := by cbv
  cases run : (fresh 8).operateAll sharedNames with
  | error f =>
    rw [run] at values
    cases values
  | ok S =>
    rw [run] at values
    have symbol : (S.store.intern "Y").1 = ⟨2⟩ := Except.ok.inj values
    obtain ⟨⟨names, _⟩, stable, _⟩ := operateAll_interns 8 _ run
    refine ⟨S, rfl, names.trans (by cbv), ?_⟩
    intro later S' run'
    obtain ⟨name, _, other⟩ := (stable "Y").2 later S' run'
    rw [symbol] at name other
    exact ⟨name, other⟩

end Session
end TermHeap
