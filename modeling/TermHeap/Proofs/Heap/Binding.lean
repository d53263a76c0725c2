import TermHeap.Proofs.Heap.Tree

/-!
# Binding variables

`Binds h h'` says that `h'` is `h` with some of its unbound variables pointed elsewhere: everything
that is no unbound variable is as before. Terms keep their heads and parts under such a change
(`Binds.view_node`), and binding a variable to the end of other references makes no cycle of
references (`NoRefCycle.bind`).
-/

namespace TermHeap.Heap

/-- The heap `h'` is `h` with some unbound variables bound. -/
structure Binds (h h' : Heap) : Prop where
  size_eq : h'.size = h.size
  keep : ∀ {p c}, h.read? p = some c → ¬ h.Unbound p → h'.read? p = some c
  bound : ∀ {p}, h.Unbound p → ∃ q, h'.read? p = some (.ref q)

variable {h h' h'' : Heap} {p q e e' x y : Addr} {c : Cell} {l : Head} {ps : List Addr}
  {f : Signature} {t : Tree}

/-- Nothing need be bound. -/
lemma Binds.refl (h : Heap) : Binds h h :=
  ⟨rfl, fun hr _ => hr, fun ub => ⟨_, ub⟩⟩

/-- Bindings may follow others. -/
lemma Binds.trans (bd : Binds h h') (bd' : Binds h' h'') : Binds h h'' := by
  refine ⟨bd'.size_eq.trans bd.size_eq, ?_, ?_⟩
  · intro p c hr nu
    have hr' := bd.keep hr nu
    apply bd'.keep hr'
    intro ub
    apply nu
    rw [Unbound, hr, ← hr']
    exact ub
  · intro p ub
    obtain ⟨q, hr⟩ := bd.bound ub
    by_cases ub' : h'.Unbound p
    · exact bd'.bound ub'
    · exact ⟨q, bd'.keep hr ub'⟩

/-- A variable that is unbound afterwards was so before. -/
lemma Binds.unbound (bd : Binds h h') (ub : h'.Unbound x) : h.Unbound x := by
  by_contra nu
  have val : h.isValid x = true := by
    have := isValid_of_read? ub
    rw [isValid_iff] at this ⊢
    rwa [← bd.size_eq]
  obtain ⟨c, hr⟩ := Option.isSome_iff_exists.mp ((isSome_read? h x).trans val)
  have hr' := bd.keep hr nu
  apply nu
  rw [Unbound, hr, ← hr']
  exact ub

/-- There are cells at the same addresses. -/
lemma Binds.isValid (bd : Binds h h') (p : Addr) : h'.isValid p = h.isValid p := by
  rw [Bool.eq_iff_iff, isValid_iff, isValid_iff, bd.size_eq]

/-- There is no cell exactly where there was none before. -/
lemma Binds.read?_none (bd : Binds h h') : h'.read? p = none ↔ h.read? p = none := by
  rw [← Option.not_isSome_iff_eq_none, ← Option.not_isSome_iff_eq_none, isSome_read?, isSome_read?,
    bd.isValid]

/-- A cell that is no reference is as before, and was so before. -/
lemma Binds.read?_iff (bd : Binds h h') (nr : ∀ q, c ≠ .ref q) :
    h'.read? p = some c ↔ h.read? p = some c := by
  constructor
  · intro hr'
    have val := isValid_of_read? hr'
    rw [bd.isValid] at val
    obtain ⟨d, hr⟩ := Option.isSome_iff_exists.mp ((isSome_read? h p).trans val)
    by_cases ub : h.Unbound p
    · obtain ⟨q, hq⟩ := bd.bound ub
      exact absurd (Option.some.inj (hr'.symm.trans hq)) (nr q)
    · rw [hr, ← bd.keep hr ub, hr']
  · intro hr
    apply bd.keep hr
    intro ub
    exact nr p (Option.some.inj (hr.symm.trans ub))

/-- Signatures are as before. -/
lemma Binds.signature?_eq (bd : Binds h h') (p : Addr) : h'.signature? p = h.signature? p := by
  apply Option.ext
  intro f
  rw [signature?_eq_some, signature?_eq_some]
  exact bd.read?_iff nofun

/-- A cell where references end stands for the same. -/
lemma Binds.cellView_eq (bd : Binds h h') (e : Addr) (c : Cell) :
    h'.cellView e c = h.cellView e c := by
  cases c with
  | rcd target => rw [cellView, cellView, bd.signature?_eq]
  | _ => rfl

/-- A reference to another address is as before. -/
lemma Binds.refStep (bd : Binds h h') (st : h.RefStep p q) : h'.RefStep p q := by
  refine ⟨bd.keep st.1 ?_, st.2⟩
  intro ub
  have e := st.1.symm.trans ub
  simp at e
  exact st.2 e

/-- References lead at least as far as before. -/
lemma Binds.ends (bd : Binds h h') (en : h.Ends p e) (en' : h'.Ends e e') : h'.Ends p e' := by
  induction en with
  | here => exact en'
  | next st _ ih => exact .next (bd.refStep st) (ih en')

/-- References that do not end at an unbound variable end where they ended. -/
lemma Binds.ends_of_not_unbound (bd : Binds h h') (en : h.Ends p e) (nu : ¬ h.Unbound e) :
    h'.Ends p e := by
  apply bd.ends en
  apply Ends.here
  rintro q ⟨hr, ne⟩
  have val := isValid_of_read? hr
  rw [bd.isValid] at val
  obtain ⟨c, hc⟩ := Option.isSome_iff_exists.mp ((isSome_read? h e).trans val)
  have hc' := bd.keep hc nu
  rw [hr] at hc'
  cases hc'
  exact en.last q ⟨hc, ne⟩

/-- What references led to before, they still stand for. -/
lemma Binds.view_eq (bd : Binds h h') (nc : h'.NoRefCycle) (en : h.Ends p e) :
    h'.view p = h'.view e := by
  obtain ⟨e', en'⟩ := nc.exists_ends e
  rw [view_eq_of_ends (bd.ends en en'), view_eq_of_ends en']

/-- A term that is no variable keeps its head and its parts. -/
lemma Binds.view_node (bd : Binds h h') (en : h.Ends p e) (hv : h.view p = .node l ps) :
    h'.view p = .node l ps := by
  have nu : ¬ h.Unbound e := by
    intro ub
    rw [view_eq_var_iff.mpr ⟨en, ub⟩] at hv
    cases hv
  have en' := bd.ends_of_not_unbound en nu
  cases hr : h.read? e with
  | some c => rw [view_of_ends en' (bd.keep hr nu), bd.cellView_eq, ← view_of_ends en hr, hv]
  | none => rw [view_of_no_cell en' (bd.read?_none.mpr hr), ← view_of_no_cell en hr, hv]

/-- The end of references that stands for no variable stood for the same before. -/
lemma Binds.view_end (bd : Binds h h') (en' : h'.Ends p e) (hv : h'.view p = .node l ps) :
    h.Ends e e ∧ h.view e = .node l ps := by
  cases hr' : h'.read? e with
  | some c =>
    have nr : ∀ q, c ≠ .ref q := by
      rintro q rfl
      rw [view_eq_var_iff.mpr ⟨en', en'.unbound hr'⟩] at hv
      cases hv
    have hr := (bd.read?_iff nr).mp hr'
    have en := Ends.of_cell hr nr
    refine ⟨en, ?_⟩
    rw [view_of_ends en hr, ← bd.cellView_eq, ← view_of_ends en' hr', hv]
  | none =>
    have hr := bd.read?_none.mp hr'
    have en := Ends.of_no_cell hr
    refine ⟨en, ?_⟩
    rw [view_of_no_cell en hr, ← view_of_no_cell en' hr', hv]

/-! ### Binding one variable -/

/-- Only the cell of the variable changes when it is bound. -/
lemma read?_bind (ub : h.Unbound x) (p : Addr) :
    (h.write x (.ref y)).read? p = if p = x then some (.ref y) else h.read? p := by
  rw [read?_write]
  have val := isValid_of_read? ub
  by_cases e : p = x
  · simp [e, val]
  · simp [e, Ne.symm e]

/-- Pointing an unbound variable elsewhere binds it. -/
lemma Binds.bind (ub : h.Unbound x) : Binds h (h.write x (.ref y)) := by
  refine ⟨size_write .., ?_, ?_⟩
  · intro p c hr nu
    rw [read?_bind ub, if_neg, hr]
    rintro rfl
    exact nu ub
  · intro p ub'
    rw [read?_bind ub]
    split
    · exact ⟨y, rfl⟩
    · exact ⟨p, ub'⟩

/-- References that ended at the variable now end where it was bound to, and the others end where
they ended. -/
lemma Ends.bind (ub : h.Unbound x) (ny : y ≠ x) (ey : h.Ends y y) (en : h.Ends p e) :
    (h.write x (.ref y)).Ends p (if e = x then y else e) := by
  have stay : ∀ e, e ≠ x → h.Ends e e → (h.write x (.ref y)).Ends e e := by
    intro e ne en
    apply Ends.here
    rintro q ⟨hr, nq⟩
    rw [read?_bind ub, if_neg ne] at hr
    exact en.last q ⟨hr, nq⟩
  apply (Binds.bind ub).ends en
  by_cases ex : e = x
  · subst ex
    rw [if_pos rfl]
    refine .next ⟨?_, ny⟩ (stay y ny ey)
    rw [read?_bind ub, if_pos rfl]
  · rw [if_neg ex]
    exact stay e ex en.self

/-- Binding a variable to the end of other references makes no cycle of references. -/
theorem NoRefCycle.bind (nc : h.NoRefCycle) (ub : h.Unbound x) (ny : y ≠ x) (ey : h.Ends y y) :
    (h.write x (.ref y)).NoRefCycle := by
  apply noRefCycle_of_ends
  intro p
  obtain ⟨e, en⟩ := nc.exists_ends p
  exact ⟨_, Ends.bind ub ny ey en⟩

end TermHeap.Heap
