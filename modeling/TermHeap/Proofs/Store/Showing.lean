import TermHeap.Proofs.Store.DisplayNames
import TermHeap.Proofs.Heap.Tree
import TermHeap.Proofs.Term.Written

/-!
# Shown terms

`Shows s p t` says that the term at the address `p` is `t`, in which the unbound variables go by the
names under which they are shown. Such a term is shown as `t` is written (`Shows.render_eq`): the
worklist of the one printer follows that of the other, piece by piece (`layout_eq`).
-/

namespace TermHeap.Store

/-- The term at an address, in which the unbound variables go by the names under which they are
shown. -/
inductive Shows (s : Store) : Addr → Term → Prop where
  | var {p x q} : s.heap.deref p = .ok (x, .ref q) → s.varName x ≠ "" →
      Shows s p (.var (s.varName x))
  | int {p e v} : s.heap.deref p = .ok (e, .int v) → Shows s p (.int v)
  | sym {p e k n} : s.heap.deref p = .ok (e, .sym k) → s.symbols.name? k = some n →
      Shows s p (.sym n)
  | nil {p e} : s.heap.deref p = .ok (e, .nil) → Shows s p .nil
  | record {p e q f n args} : s.heap.deref p = .ok (e, .rcd q) → s.heap.read? q = some (.sig f) →
      s.symbols.name? f.name = some n → f.arity = args.length →
      (∀ i (hi : i < args.length), Shows s (q + 1 + i) args[i]) → Shows s p (.record n args)
  | cons {p e q car cdr} : s.heap.deref p = .ok (e, .lst q) → Shows s q car →
      Shows s (q + 1) cdr → Shows s p (.cons car cdr)

/-- The pieces of the two printers that come to the same text. -/
inductive ShowsPiece (s : Store) : Piece → Term.Piece → Prop where
  | value {p d t} : s.Shows p t → s.heap.DepthLe d p → ShowsPiece s (.value p d) (.term t)
  | tail {p d t} : s.Shows p t → s.heap.DepthLe d p → ShowsPiece s (.tail p d) (.tail t)
  | args {p n d ts} : n = ts.length →
      (∀ i (hi : i < ts.length), s.Shows (p + i) ts[i] ∧ s.heap.DepthLe d (p + i)) →
      ShowsPiece s (.args p n d) (.args ts)
  | close : ShowsPiece s .close .close

variable {s : Store} {p q e : Addr} {c : Cell} {t : Term} {d : Nat} {f : Signature}

/-- There is room for a record, and the arguments have room for one level less. -/
lemma depth_of_record (hd : s.heap.deref p = .ok (e, .rcd q)) (hf : s.heap.read? q = some (.sig f))
    (dp : s.heap.DepthLe d p) :
    ∃ d', d = d' + 1 ∧ ∀ i < f.arity, s.heap.DepthLe d' (q + 1 + i) := by
  cases d with
  | zero =>
    have hv := Heap.view_of_deref hd
    rw [Heap.cellView, Heap.signature?_eq_some.mpr hf] at hv
    exact absurd ⟨_, _, hv, rfl⟩ dp
  | succ d => exact ⟨d, rfl, fun i hi => dp _ (Heap.part_of_record hd hf hi)⟩

/-- There is room for a list pair, and its parts have room for one level less. -/
lemma depth_of_pair (hd : s.heap.deref p = .ok (e, .lst q)) (dp : s.heap.DepthLe d p) :
    ∃ d', d = d' + 1 ∧ s.heap.DepthLe d' q ∧ s.heap.DepthLe d' (q + 1) := by
  cases d with
  | zero => exact absurd ⟨_, _, Heap.view_of_deref hd, rfl⟩ dp
  | succ d =>
    obtain ⟨car, cdr⟩ := Heap.part_of_pair hd
    exact ⟨d, rfl, dp _ car, dp _ cdr⟩

/-! ### Following references -/

/-- The end of references is found from itself. -/
lemma deref_end (hd : s.heap.deref p = .ok (e, c)) : s.heap.deref e = .ok (e, c) := by
  obtain ⟨en, hr⟩ := Heap.deref_eq_ok_iff.mp hd
  exact Heap.deref_eq_ok_iff.mpr ⟨en.self, hr⟩

/-- Addresses with the same end are shown alike. -/
lemma Shows.congr (sh : s.Shows p t) (eq : s.heap.deref q = s.heap.deref p) : s.Shows q t := by
  cases sh with
  | var hd ne => exact .var (eq.trans hd) ne
  | int hd => exact .int (eq.trans hd)
  | sym hd hk => exact .sym (eq.trans hd) hk
  | nil hd => exact .nil (eq.trans hd)
  | record hd hf hn ha args => exact .record (eq.trans hd) hf hn ha args
  | cons hd car cdr => exact .cons (eq.trans hd) car cdr

/-- Addresses with the same end have the same depth. -/
lemma depthLe_congr (dp : s.heap.DepthLe d p) (eq : s.heap.deref q = s.heap.deref p) :
    s.heap.DepthLe d q := by
  have view : s.heap.view q = s.heap.view p := by rw [Heap.view, Heap.view, eq]
  cases d with
  | zero =>
    rintro ⟨l, ps, hv, hl⟩
    exact dp ⟨l, ps, view ▸ hv, hl⟩
  | succ d =>
    rintro r ⟨l, ps, hv, mem⟩
    exact dp r ⟨l, ps, view ▸ hv, mem⟩

/-! ### The two printers -/

section
variable {ps : List Piece} {qs : List Term.Piece} {ts : List Term}

/-- Where the one printer is to write a term, so is the other. -/
lemma exists_value (sh : List.Forall₂ s.ShowsPiece ps (.term t :: qs)) :
    ∃ p d xs, ps = .value p d :: xs ∧ s.Shows p t ∧ s.heap.DepthLe d p ∧
      List.Forall₂ s.ShowsPiece xs qs := by
  obtain _ | ⟨⟨sp, dp⟩, tl⟩ := sh
  exact ⟨_, _, _, rfl, sp, dp, tl⟩

/-- Where the one printer is to write the tail of a list, so is the other. -/
lemma exists_tail (sh : List.Forall₂ s.ShowsPiece ps (.tail t :: qs)) :
    ∃ p d xs, ps = .tail p d :: xs ∧ s.Shows p t ∧ s.heap.DepthLe d p ∧
      List.Forall₂ s.ShowsPiece xs qs := by
  obtain _ | ⟨_ | ⟨sp, dp⟩, tl⟩ := sh
  exact ⟨_, _, _, rfl, sp, dp, tl⟩

/-- Where the one printer is to write the arguments of a record, so is the other. -/
lemma exists_args (sh : List.Forall₂ s.ShowsPiece ps (.args ts :: qs)) :
    ∃ p d xs, ps = .args p ts.length d :: xs ∧
      (∀ i (hi : i < ts.length), s.Shows (p + i) ts[i] ∧ s.heap.DepthLe d (p + i)) ∧
      List.Forall₂ s.ShowsPiece xs qs := by
  obtain _ | ⟨_ | _ | ⟨rfl, args⟩, tl⟩ := sh
  exact ⟨_, _, _, rfl, args, tl⟩

/-- The bracket behind a tail that is no list is opened by the same tail. -/
lemma layout_tail {out : String} {xs : List Piece} (sp : s.Shows p t) (dp : s.heap.DepthLe d p)
    (notNil : t ≠ .nil) (notCons : ∀ car cdr, t ≠ .cons car cdr) :
    ∃ e, s.layout (.tail p d :: xs) out = s.layout (.value e d :: .close :: xs) (out ++ " | ") ∧
      s.Shows e t ∧ s.heap.DepthLe d e := by
  have opens : ∀ {e c}, s.heap.deref p = .ok (e, c) → c ≠ .nil → (∀ q, c ≠ .lst q) →
      ∃ e, s.layout (.tail p d :: xs) out = s.layout (.value e d :: .close :: xs) (out ++ " | ") ∧
        s.Shows e t ∧ s.heap.DepthLe d e := by
    intro e c hd notNil notList
    have eq := (deref_end hd).trans hd.symm
    refine ⟨e, ?_, sp.congr eq, depthLe_congr dp eq⟩
    conv_lhs => rw [layout]
    cases c with
    | nil => exact absurd rfl notNil
    | lst q => exact absurd rfl (notList q)
    | _ => simp only [hd]
  cases sp with
  | var hd _ => exact opens hd (by simp) (by simp)
  | int hd => exact opens hd (by simp) (by simp)
  | sym hd _ => exact opens hd (by simp) (by simp)
  | nil => exact absurd rfl notNil
  | record hd _ _ _ _ => exact opens hd (by simp) (by simp)
  | cons => exact absurd rfl (notCons _ _)

end

/-- The printer of the store writes what the printer of terms writes. -/
theorem layout_eq {ps : List Piece} (qs : List Term.Piece) (out : String)
    (sh : List.Forall₂ s.ShowsPiece ps qs) : s.layout ps out = .ok (Term.layout qs out) := by
  -- along the printer of terms, whose next piece tells the cell that the other one meets
  fun_induction Term.layout qs out generalizing ps with
  | case1 out =>
    cases sh
    rw [layout]
  | case2 out v rest ih =>
    obtain ⟨p, d, xs, rfl, sp, dp, tl⟩ := exists_value sh
    cases sp with
    | int hd =>
      rw [layout]
      simp only [shape, hd]
      exact ih tl
  | case3 out n rest ih =>
    obtain ⟨p, d, xs, rfl, sp, dp, tl⟩ := exists_value sh
    cases sp with
    | sym hd hk =>
      rw [layout]
      simp only [shape, hd, Symbols.name, hk, Except.map]
      exact ih tl
  | case4 out n rest ih =>
    obtain ⟨p, d, xs, rfl, sp, dp, tl⟩ := exists_value sh
    cases sp with
    | var hd ne =>
      have text : Term.varText (s.varName _) = s.varName _ := if_neg (by simpa using ne)
      rw [layout]
      simp only [shape, hd]
      rw [text] at ih ⊢
      exact ih tl
  | case5 out rest ih =>
    obtain ⟨p, d, xs, rfl, sp, dp, tl⟩ := exists_value sh
    cases sp with
    | nil hd =>
      rw [layout]
      simp only [shape, hd]
      exact ih tl
  | case6 out n rest ih =>
    obtain ⟨p, d, xs, rfl, sp, dp, tl⟩ := exists_value sh
    cases sp with
    | @record _ e q f _ _ hd hf hn ha args =>
      obtain ⟨k, m, hm⟩ := f
      obtain rfl : m = 0 := ha
      rw [layout]
      simp only [shape, hd, recordShape, Heap.signature?_eq_some.mpr hf, Symbols.name, hn,
        Except.map]
      rw [← String.append_assoc]
      exact ih tl
  | case7 out n a as rest ih =>
    obtain ⟨p, d, xs, rfl, sp, dp, tl⟩ := exists_value sh
    cases sp with
    | @record _ e q f _ _ hd hf hn ha args =>
      obtain ⟨d, rfl, dp'⟩ := depth_of_record hd hf dp
      obtain ⟨k, m, hm⟩ := f
      obtain rfl : m = as.length + 1 := ha
      rw [layout]
      simp only [shape, hd, recordShape, Heap.signature?_eq_some.mpr hf, Symbols.name, hn,
        Except.map]
      refine ih (.cons (.value (args 0 (by simp)) (dp' 0 (by simp))) (.cons (.args rfl ?_) tl))
      intro i hi
      rw [Nat.add_assoc _ 1, Nat.add_comm 1]
      exact ⟨args (i + 1) (by simpa using hi), dp' (i + 1) (by simpa using hi)⟩
  | case8 out car cdr rest ih =>
    obtain ⟨p, d, xs, rfl, sp, dp, tl⟩ := exists_value sh
    cases sp with
    | cons hd scar scdr =>
      obtain ⟨d, rfl, dcar, dcdr⟩ := depth_of_pair hd dp
      rw [layout]
      simp only [shape, hd]
      exact ih (.cons (.value scar dcar) (.cons (.tail scdr dcdr) tl))
  | case9 out rest ih =>
    obtain ⟨p, d, xs, rfl, sp, dp, tl⟩ := exists_tail sh
    cases sp with
    | nil hd =>
      rw [layout]
      simp only [hd]
      exact ih tl
  | case10 out car cdr rest ih =>
    obtain ⟨p, d, xs, rfl, sp, dp, tl⟩ := exists_tail sh
    cases sp with
    | cons hd scar scdr =>
      obtain ⟨d, rfl, dcar, dcdr⟩ := depth_of_pair hd dp
      rw [layout]
      simp only [hd]
      exact ih (.cons (.value scar dcar) (.cons (.tail scdr dcdr) tl))
  | case11 out t rest notNil notCons ih =>
    obtain ⟨p, d, xs, rfl, sp, dp, tl⟩ := exists_tail sh
    obtain ⟨e, eq, sp', dp'⟩ := layout_tail sp dp notNil notCons
    rw [eq]
    exact ih (.cons (.value sp' dp') (.cons .close tl))
  | case12 out rest ih =>
    obtain ⟨p, d, xs, rfl, args, tl⟩ := exists_args sh
    rw [List.length_nil, layout]
    exact ih tl
  | case13 out a as rest ih =>
    obtain ⟨p, d, xs, rfl, args, tl⟩ := exists_args sh
    rw [List.length_cons, layout]
    obtain ⟨sp, dp⟩ := args 0 (by simp)
    refine ih (.cons (.value sp dp) (.cons (.args rfl ?_) tl))
    intro i hi
    rw [Nat.add_assoc, Nat.add_comm 1]
    exact args (i + 1) (by simpa using hi)
  | case14 out rest ih =>
    obtain _ | ⟨⟨⟩, tl⟩ := sh
    rw [layout]
    exact ih tl

/-- A term is shown as it is written. -/
theorem Shows.render_eq (sh : s.Shows p t) (ac : s.heap.Acyclic p) :
    s.render p = .ok t.render :=
  layout_eq _ "" (.cons (.value sh ac.depthLe) .nil)

end TermHeap.Store
