import TermHeap.Proofs.Heap.Binding

/-!
# What can be reached from an address

`Below h a p` says that a walk down from `a` meets `p`, be it at a reference or at its end;
`Occurs h a x` that it meets the unbound variable `x`. A set is closed if no walk leads out of it.
What is below an address is such a set (`closed_below`), and a closed set stays closed when one of
its variables is bound within it (`Closed.bind`), although walks then lead elsewhere.
-/

namespace TermHeap.Heap
open Relation

/-- A walk down from `a` along parts and references meets `p`. -/
def Below (h : Heap) (a p : Addr) : Prop :=
  ∃ r, ReflTransGen h.Part a r ∧ ReflTransGen h.RefStep r p

/-- The unbound variable `x` stands in the term at `a`. -/
def Occurs (h : Heap) (a x : Addr) : Prop := ∃ r, ReflTransGen h.Part a r ∧ h.view r = .var x

/-- No reference and no part leads out of `V`. -/
structure Closed (h : Heap) (V : Addr → Prop) : Prop where
  ref : ∀ {p q}, V p → h.RefStep p q → V q
  part : ∀ {p q}, V p → h.Part p q → V q

variable {h h' : Heap} {V W : Addr → Prop} {a p q e x y : Addr}

/-- Only the end of references has parts. -/
lemma Part.ends (pt : h.Part p q) : ∃ e, h.Ends p e ∧ h.Part e q := by
  obtain ⟨l, ps, hv, mem⟩ := pt
  have hd := hv
  rw [view] at hd
  split at hd
  · rename_i e c he
    have en := (deref_eq_ok_iff.mp he).1
    exact ⟨e, en, l, ps, (view_eq_of_ends en).symm.trans hv, mem⟩
  · cases hd
    cases mem

/-- The references to an address end where those from it do. -/
lemma Ends.of_walk (wk : ReflTransGen h.RefStep p q) (en : h.Ends q e) : h.Ends p e := by
  induction wk using ReflTransGen.head_induction_on with
  | refl => exact en
  | head st _ ih => exact .next st ih

/-- An address is below itself. -/
lemma Below.self (h : Heap) (a : Addr) : h.Below a a := ⟨a, .refl, .refl⟩

/-- An unbound variable below an address stands in the term there. -/
lemma Below.occurs (bl : h.Below a x) (ub : h.Unbound x) : h.Occurs a x := by
  obtain ⟨r, down, wk⟩ := bl
  exact ⟨r, down, view_eq_var_iff.mpr ⟨.of_walk wk ub.ends, ub⟩⟩

/-- No walk leads out of what is below an address. -/
theorem closed_below (h : Heap) (a : Addr) : h.Closed (h.Below a) := by
  constructor
  · rintro p q ⟨r, down, wk⟩ st
    exact ⟨r, down, wk.tail st⟩
  · rintro p q ⟨r, down, wk⟩ pt
    -- the term at `p` is the one at `r`, so `q` is also a part of that
    obtain ⟨e, en, l, ps, hv, mem⟩ := pt.ends
    refine ⟨q, down.tail ⟨l, ps, ?_, mem⟩, .refl⟩
    rw [view_eq_of_ends (.of_walk wk en), hv]

/-- Two closed sets together are closed. -/
lemma Closed.or (cl : h.Closed V) (cl' : h.Closed W) : h.Closed fun p => V p ∨ W p := by
  constructor
  · rintro p q (vp | wp) st
    · exact .inl (cl.ref vp st)
    · exact .inr (cl'.ref wp st)
  · rintro p q (vp | wp) pt
    · exact .inl (cl.part vp pt)
    · exact .inr (cl'.part wp pt)

/-- Where no reference leads out of `V`, references from an address of `V` end in it. -/
lemma Ends.mem (ref : ∀ {p q}, V p → h.RefStep p q → V q) (vp : V p) (en : h.Ends p e) : V e := by
  induction en with
  | here => exact vp
  | next st _ ih => exact ih (ref vp st)

/-- The end of references has the parts that it had before variables were bound. -/
lemma Binds.part_end (bd : h.Binds h') (en : h'.Ends p e) (pt : h'.Part e q) : h.Part e q := by
  obtain ⟨l, ps, hv, mem⟩ := pt
  exact ⟨l, ps, (bd.view_end en.self hv).2, mem⟩

/-- A variable may be bound to an address of a closed set. -/
theorem Closed.bind (cl : h.Closed V) (ub : h.Unbound x) (vy : V y) :
    (h.write x (.ref y)).Closed V := by
  have ref : ∀ {p q}, V p → (h.write x (.ref y)).RefStep p q → V q := by
    rintro p q vp ⟨hr, ne⟩
    rw [read?_bind ub] at hr
    split at hr
    · cases hr
      exact vy
    · exact cl.ref vp ⟨hr, ne⟩
  refine ⟨ref, ?_⟩
  intro p q vp pt
  obtain ⟨e, en, pt⟩ := pt.ends
  exact cl.part (en.mem ref vp) ((Binds.bind ub).part_end en pt)

end TermHeap.Heap
