import TermHeap.Proofs.Store.Report
import TermHeap.Proofs.Store.Showing

/-!
# Runs of the printer

`Emits` lists what the printer can do with the next piece of its worklist, and keeps apart the text
of terms from the marks that are written in the place of cells that cannot be read. `Prints` is a
whole run of such steps, and `layout` writes its texts (`Prints.layout_eq`). Whatever the cells are,
there is such a run where symbols are known and nothing is a part of itself (`exists_prints`). So a
term that is not shown has no end or an unknown symbol (`render_error`).
-/

namespace TermHeap.Store

/-! ### The steps of the printer -/

/-- What the printer writes at a time. -/
inductive Written where
  /-- Text of a term. -/
  | text (text : String)
  /-- The mark `$bad(a)` for a cell that cannot be read. -/
  | bad (a : Addr)
  /-- The mark `$sig(name/arity)` for a signature that stands where a value should be. -/
  | sig (name : String) (arity : Nat)

namespace Written

/-- What is written as text. -/
def toText : Written → String
  | .text t => t
  | .bad a => badText a
  | .sig n arity => "$sig(" ++ (n ++ "/" ++ toString arity) ++ ")"

/-- Text stands for itself. -/
lemma toText_text (t : String) : (text t).toText = t := rfl

/-- Whether it stands for a cell that cannot be read. -/
def isMark : Written → Bool
  | .text _ => false
  | .bad _ | .sig _ _ => true

/-- All that is written as one text. -/
def join (ws : List Written) : String := String.join (ws.map toText)

end Written

/-- For a piece of the worklist something is written, and other pieces take its place. -/
inductive Emits (s : Store) : Piece → Written → List Piece → Prop where
  | unresolved {p d bad} : s.heap.deref p = .error bad → Emits s (.value p d) (.bad bad) []
  | var {p d x q} : s.heap.deref p = .ok (x, .ref q) →
      Emits s (.value p d) (.text (s.varName x)) []
  | int {p d e v} : s.heap.deref p = .ok (e, .int v) →
      Emits s (.value p d) (.text (toString v.toInt)) []
  | sym {p d e k n} : s.heap.deref p = .ok (e, .sym k) → s.symbols.name? k = some n →
      Emits s (.value p d) (.text n) []
  | nil {p d e} : s.heap.deref p = .ok (e, .nil) → Emits s (.value p d) (.text "[]") []
  | signature {p d e f n} : s.heap.deref p = .ok (e, .sig f) → s.symbols.name? f.name = some n →
      Emits s (.value p d) (.sig n f.arity) []
  | noSignature {p d e q} : s.heap.deref p = .ok (e, .rcd q) → s.heap.signature? q = none →
      Emits s (.value p d) (.bad q) []
  | constant {p d e q f n} : s.heap.deref p = .ok (e, .rcd q) →
      s.heap.read? q = some (.sig f) → s.symbols.name? f.name = some n → f.arity = 0 →
      Emits s (.value p d) (.text (n ++ "()")) []
  | record {p d e q f n m} : s.heap.deref p = .ok (e, .rcd q) → s.heap.read? q = some (.sig f) →
      s.symbols.name? f.name = some n → f.arity = m + 1 →
      Emits s (.value p (d + 1)) (.text (n ++ "(")) [.value (q + 1) d, .args (q + 1 + 1) m d]
  | list {p d e q} : s.heap.deref p = .ok (e, .lst q) →
      Emits s (.value p (d + 1)) (.text "[") [.value q d, .tail (q + 1) d]
  | badTail {p d bad} : s.heap.deref p = .error bad → Emits s (.tail p d) (.bad bad) []
  | endTail {p d e} : s.heap.deref p = .ok (e, .nil) → Emits s (.tail p d) (.text "]") []
  | listTail {p d e q} : s.heap.deref p = .ok (e, .lst q) →
      Emits s (.tail p (d + 1)) (.text ", ") [.value q d, .tail (q + 1) d]
  | otherTail {p d e c} : s.heap.deref p = .ok (e, c) → c ≠ .nil → (∀ q, c ≠ .lst q) →
      Emits s (.tail p d) (.text " | ") [.value e d, .close]
  | noArgs {p d} : Emits s (.args p 0 d) (.text ")") []
  | nextArg {p n d} : Emits s (.args p (n + 1) d) (.text ", ") [.value p d, .args (p + 1) n d]
  | close : Emits s .close (.text "]") []

/-- What is written for a whole worklist. -/
inductive Prints (s : Store) : List Piece → List Written → Prop where
  | nil : Prints s [] []
  | cons {p w new rest ws} : s.Emits p w new → Prints s (new ++ rest) ws →
      Prints s (p :: rest) (w :: ws)

variable {s : Store} {p : Addr} {d n : Nat} {piece : Piece} {w : Written} {new ps : List Piece}
  {ws : List Written}

/-- The printer takes one such step at a time. -/
lemma Emits.layout_eq (em : s.Emits piece w new) (rest : List Piece) (out : String) :
    s.layout (piece :: rest) out = s.layout (new ++ rest) (out ++ w.toText) := by
  cases piece with
  | value p d =>
    conv_lhs => rw [layout]
    cases em with
    | unresolved hd => simp only [shape, hd, Written.toText, List.nil_append]
    | var hd =>
      -- not by unfolding, which would compute the name
      rw [Written.toText_text]
      simp only [shape, hd, List.nil_append]
    | int hd => simp only [shape, hd, Written.toText, List.nil_append]
    | sym hd hk =>
      simp only [shape, hd, name_of_name? hk, Except.map, Written.toText, List.nil_append]
    | nil hd => simp only [shape, hd, Written.toText, List.nil_append]
    | signature hd hk =>
      simp only [shape, hd, signatureText_of_name? hk, Except.map, Written.toText,
        List.nil_append]
    | noSignature hd hq => simp only [shape, hd, recordShape, hq, Written.toText, List.nil_append]
    | @constant _ _ _ _ f _ hd hf hk ha =>
      obtain ⟨k, m, hm⟩ := f
      obtain rfl : m = 0 := ha
      simp only [shape, hd, recordShape, Heap.signature?_eq_some.mpr hf, name_of_name? hk,
        Except.map, Written.toText, List.nil_append]
    | @record _ _ _ _ f _ m hd hf hk ha =>
      obtain ⟨k, m', hm⟩ := f
      obtain rfl : m' = m + 1 := ha
      simp only [shape, hd, recordShape, Heap.signature?_eq_some.mpr hf, name_of_name? hk,
        Except.map, Written.toText, String.append_assoc, List.cons_append, List.nil_append]
    | list hd => simp only [shape, hd, Written.toText, List.cons_append, List.nil_append]
  | tail p d =>
    conv_lhs => rw [layout]
    cases em with
    | badTail hd => simp only [hd, Written.toText, List.nil_append]
    | endTail hd => simp only [hd, Written.toText, List.nil_append]
    | listTail hd => simp only [hd, Written.toText, List.cons_append, List.nil_append]
    | @otherTail _ _ _ c hd notNil notList =>
      cases c with
      | nil => exact absurd rfl notNil
      | lst q => exact absurd rfl (notList q)
      | _ => simp only [hd, Written.toText, List.cons_append, List.nil_append]
  | args p n d =>
    cases em with
    | noArgs =>
      conv_lhs => rw [layout]
      simp only [Written.toText, List.nil_append]
    | nextArg =>
      conv_lhs => rw [layout]
      simp only [Written.toText, List.cons_append, List.nil_append]
  | close =>
    cases em
    conv_lhs => rw [layout]
    simp only [Written.toText, List.nil_append]

/-- The printer writes the texts of all its steps. -/
theorem Prints.layout_eq (pr : s.Prints ps ws) (out : String) :
    s.layout ps out = .ok (out ++ Written.join ws) := by
  induction pr generalizing out with
  | nil =>
    rw [layout, Written.join, List.map_nil, String.join_nil, String.append_empty]
  | cons em _ ih =>
    rw [em.layout_eq, ih, String.append_assoc, Written.join, Written.join, List.map_cons,
      String.join_cons]

/-! ### The printer comes to an end -/

/-- All symbols of cells are known, and so are the names of variables, none of which is empty. -/
structure Legible (s : Store) : Prop where
  sym : ∀ {p k}, s.heap.read? p = some (.sym k) → k.index < s.symbols.size
  sig : ∀ {p f}, s.heap.read? p = some (.sig f) → f.name.index < s.symbols.size
  var : ∀ {p k}, s.vars.name? p = some k → ∃ n, n ≠ "" ∧ s.symbols.name? k = some n

/-- Variables are shown by names that are not empty. -/
lemma Legible.varName_ne (lg : s.Legible) (x : Addr) : s.varName x ≠ "" := by
  cases hn : s.vars.name? x with
  | some k =>
    obtain ⟨n, ne, hk⟩ := lg.var hn
    rwa [varName_of_name? hn hk]
  | none =>
    obtain ⟨n, eq, _⟩ := varName_of_no_name hn
    rw [eq]
    intro e
    have e := congrArg String.toList e
    rw [toList_candidateName] at e
    cases e

/-- The names of legible cells are known. -/
lemma Legible.known (lg : s.Legible) : s.Known :=
  ⟨fun hr => Symbols.exists_name?_iff.mpr (lg.sym hr),
    fun hr => Symbols.exists_name?_iff.mpr (lg.sig hr)⟩

/-- A worklist is printed to its end, or the printer stops at a symbol that is not known. -/
def Ended (s : Store) (ps : List Piece) : Prop :=
  (∃ ws, s.Prints ps ws) ∨ ¬ s.Known ∧ ∀ out, s.layout ps out = .error .noSymbol

/-- Where the rest of a worklist has an end, it has one with the piece before it. -/
def Completes (s : Store) (piece : Piece) : Prop :=
  ∀ rest, s.Ended rest → s.Ended (piece :: rest)

/-- A piece comes to an end if all that takes its place does. -/
lemma Emits.completes (em : s.Emits piece w new) (all : ∀ q ∈ new, s.Completes q) :
    s.Completes piece := by
  intro rest ended
  have row : ∀ qs : List Piece, (∀ q ∈ qs, s.Completes q) → s.Ended (qs ++ rest) := by
    intro qs all
    induction qs with
    | nil => exact ended
    | cons q qs ih => exact all q List.mem_cons_self _ (ih fun q' mem => all q' (.tail q mem))
  rcases row new all with ⟨ws, pr⟩ | ⟨unknown, stop⟩
  · exact .inl ⟨w :: ws, .cons em pr⟩
  · exact .inr ⟨unknown, fun out => (em.layout_eq rest out).trans (stop _)⟩

/-- A term whose first level cannot be shown ends the printing. -/
lemma completes_of_shape_error {e : Fault} (hs : s.shape p = .error e) :
    s.Completes (.value p d) := by
  intro rest _
  obtain ⟨rfl, unknown⟩ := shape_error hs
  refine .inr ⟨unknown, fun out => ?_⟩
  rw [layout, hs]

/-- What holds of a row holds of its first place and of the others. -/
lemma forall_lt_succ_args (P : Addr → Prop) :
    (∀ i < n + 1, P (p + i)) ↔ P p ∧ ∀ i < n, P (p + 1 + i) := by
  rw [Nat.forall_lt_succ_left]
  simp only [Nat.add_zero, Nat.add_assoc, Nat.add_comm 1]

/-- The arguments of a record are printed to their end if each of them is. -/
lemma completes_args (all : ∀ i < n, s.Completes (.value (p + i) d)) :
    s.Completes (.args p n d) := by
  induction n generalizing p with
  | zero => exact Emits.noArgs.completes nofun
  | succ n ih =>
    rw [forall_lt_succ_args fun q => s.Completes (.value q d)] at all
    apply Emits.nextArg.completes
    simpa using ⟨all.1, ih all.2⟩

/-- A term of bounded depth is printed from its first level on, if its parts are. -/
lemma completes_value (dp : s.heap.DepthLe d p)
    (parts : ∀ d', d = d' + 1 → ∀ q, s.heap.DepthLe d' q →
      s.Completes (.value q d') ∧ s.Completes (.tail q d')) : s.Completes (.value p d) := by
  cases hd : s.heap.deref p with
  | error bad => exact (Emits.unresolved hd).completes nofun
  | ok found =>
    obtain ⟨e, c⟩ := found
    cases c with
    | ref q => exact (Emits.var hd).completes nofun
    | int v => exact (Emits.int hd).completes nofun
    | sym k =>
      cases hk : s.symbols.name? k with
      | none =>
        apply completes_of_shape_error (e := .noSymbol)
        simp only [shape, hd, name_of_unknown hk, Except.map]
      | some n => exact (Emits.sym hd hk).completes nofun
    | nil => exact (Emits.nil hd).completes nofun
    | sig f =>
      cases hk : s.symbols.name? f.name with
      | none =>
        apply completes_of_shape_error (e := .noSymbol)
        simp only [shape, hd, signatureText_of_unknown hk, Except.map]
      | some n => exact (Emits.signature hd hk).completes nofun
    | lst q =>
      obtain ⟨d', rfl, dcar, dcdr⟩ := depth_of_pair hd dp
      apply (Emits.list hd).completes
      simpa using ⟨(parts d' rfl q dcar).1, (parts d' rfl (q + 1) dcdr).2⟩
    | rcd q =>
      cases hq : s.heap.signature? q with
      | none => exact (Emits.noSignature hd hq).completes nofun
      | some f =>
        have hf := Heap.signature?_eq_some.mp hq
        cases hk : s.symbols.name? f.name with
        | none =>
          apply completes_of_shape_error (e := .noSymbol)
          rw [shape, hd]
          exact recordShape_of_unknown hq hk
        | some n =>
          cases ha : f.arity with
          | zero => exact (Emits.constant hd hf hk ha).completes nofun
          | succ m =>
            obtain ⟨d', rfl, args⟩ := depth_of_record hd hf dp
            rw [ha, forall_lt_succ_args (s.heap.DepthLe d')] at args
            apply (Emits.record hd hf hk ha).completes
            have others := completes_args fun i hi => (parts d' rfl _ (args.2 i hi)).1
            simpa using ⟨(parts d' rfl _ args.1).1, others⟩

/-- The rest of a list of bounded depth is printed from its first level on, if its parts are. -/
lemma completes_tail (dp : s.heap.DepthLe d p)
    (value : ∀ e, s.heap.DepthLe d e → s.Completes (.value e d))
    (parts : ∀ d', d = d' + 1 → ∀ q, s.heap.DepthLe d' q →
      s.Completes (.value q d') ∧ s.Completes (.tail q d')) : s.Completes (.tail p d) := by
  cases hd : s.heap.deref p with
  | error bad => exact (Emits.badTail hd).completes nofun
  | ok found =>
    obtain ⟨e, c⟩ := found
    have other (notNil : c ≠ .nil) (notList : ∀ q, c ≠ .lst q) : s.Completes (.tail p d) := by
      have eq := (deref_end hd).trans hd.symm
      apply (Emits.otherTail hd notNil notList).completes
      simpa using ⟨value e (depthLe_congr dp eq), Emits.close.completes nofun⟩
    cases c with
    | nil => exact (Emits.endTail hd).completes nofun
    | lst q =>
      obtain ⟨d', rfl, dcar, dcdr⟩ := depth_of_pair hd dp
      apply (Emits.listTail hd).completes
      simpa using ⟨(parts d' rfl q dcar).1, (parts d' rfl (q + 1) dcdr).2⟩
    | _ => exact other nofun nofun

/-- Terms of bounded depth are printed to their end. -/
lemma completes_of_depthLe (dp : s.heap.DepthLe d p) :
    s.Completes (.value p d) ∧ s.Completes (.tail p d) := by
  induction d generalizing p with
  | zero =>
    have value : ∀ e, s.heap.DepthLe 0 e → s.Completes (.value e 0) :=
      fun e dp => completes_value dp nofun
    exact ⟨value p dp, completes_tail dp value nofun⟩
  | succ d ih =>
    have parts : ∀ d', d + 1 = d' + 1 → ∀ q, s.heap.DepthLe d' q →
        s.Completes (.value q d') ∧ s.Completes (.tail q d') := by
      rintro d' eq q dq
      obtain rfl := Nat.succ.inj eq
      exact ih dq
    have value : ∀ e, s.heap.DepthLe (d + 1) e → s.Completes (.value e (d + 1)) :=
      fun e dp => completes_value dp parts
    exact ⟨value p dp, completes_tail dp value parts⟩

/-- Where nothing is a part of itself, the printer comes to an end. -/
lemma ended_of_acyclic (ac : s.heap.Acyclic p) : s.Ended [.value p s.heap.size] :=
  (completes_of_depthLe ac.depthLe).1 [] (.inl ⟨[], .nil⟩)

/-- If all symbols are known as well, everything is printed. -/
theorem exists_prints (kn : s.Known) (ac : s.heap.Acyclic p) :
    ∃ ws, s.Prints [.value p s.heap.size] ws :=
  (ended_of_acyclic ac).resolve_right fun stop => stop.1 kn

/-- A term that cannot be shown has an unknown symbol, or it has no end. -/
theorem render_error {e : Fault} (hr : s.render p = .error e) :
    e = .noSymbol ∧ ¬ s.Known ∨ e = .cyclic ∧ ¬ s.heap.Acyclic p := by
  by_cases ac : s.heap.Acyclic p
  · left
    rw [render] at hr
    rcases ended_of_acyclic ac with ⟨ws, pr⟩ | ⟨unknown, stop⟩
    · cases (pr.layout_eq "").symm.trans hr
    · exact ⟨Except.error.inj (hr.symm.trans (stop "")), unknown⟩
  · rcases layout_error hr with rfl | unknown
    · exact .inr ⟨rfl, ac⟩
    · exact .inl unknown

end TermHeap.Store
