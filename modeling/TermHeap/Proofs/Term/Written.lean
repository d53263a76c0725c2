import Mathlib
import TermHeap.Proofs.Term.Acceptance

/-!
# Written terms are read back

A canonical term is one that a text can stand for: its names are identifiers of the right kind, its
records have one to 255 arguments and its lists end in the empty list. The written form of a
canonical term is a text of it (`spells_render`), so it is read as that term. Every term that has
been read is canonical (`canonical_of_spells`). The printer has a worklist of pieces and the grammar
nests texts; `Piece.Text` says which texts a piece may come to, and one induction along the printer
shows that it writes such a text for each of its pieces (`writes_layout`).
-/

namespace TermHeap.Term
open Grammar

/-! ### Canonical terms -/

/-- The term is the empty list, or the rest of it behind its first element is of that form. -/
def EndsInNil : Term → Prop
  | .nil => True
  | .cons _ cdr => EndsInNil cdr
  | _ => False

mutual

/-- The names, arities and lists of the term are those that texts can stand for. -/
def Canonical : Term → Prop
  | .int _ | .nil => True
  | .sym name => Identifier name.toList ∧ name.toList.head?.any Char.isLower
  | .var name =>
    name = "" ∨
      Identifier name.toList ∧ name ≠ "_" ∧ name.toList.head?.any fun c => c.isUpper || c = '_'
  | .record name args =>
    Identifier name.toList ∧ 1 ≤ args.length ∧ args.length ≤ 255 ∧ CanonicalAll args
  | .cons car cdr => Canonical car ∧ Canonical cdr ∧ EndsInNil cdr

/-- All of the terms are canonical. -/
def CanonicalAll : List Term → Prop
  | [] => True
  | t :: ts => Canonical t ∧ CanonicalAll ts

end

/-- It can be decided whether a list ends in the empty list. -/
instance decidableEndsInNil : DecidablePred EndsInNil
  | .nil => inferInstanceAs (Decidable True)
  | .cons _ cdr => decidableEndsInNil cdr
  | .int _ | .sym _ | .var _ | .record _ _ => inferInstanceAs (Decidable False)

mutual

/-- It can be decided whether a term is canonical. -/
instance decidableCanonical : DecidablePred Canonical
  | .int _ | .nil => inferInstanceAs (Decidable True)
  | .sym name =>
    inferInstanceAs (Decidable (Identifier name.toList ∧ name.toList.head?.any Char.isLower))
  | .var name => inferInstanceAs (Decidable (name = "" ∨
      Identifier name.toList ∧ name ≠ "_" ∧ name.toList.head?.any fun c => c.isUpper || c = '_'))
  | .record name args =>
    have := decidableCanonicalAll args
    inferInstanceAs (Decidable (Identifier name.toList ∧ 1 ≤ args.length ∧ args.length ≤ 255 ∧
      CanonicalAll args))
  | .cons car cdr =>
    have := decidableCanonical car
    have := decidableCanonical cdr
    inferInstanceAs (Decidable (Canonical car ∧ Canonical cdr ∧ EndsInNil cdr))

/-- It can be decided whether several terms are canonical. -/
instance decidableCanonicalAll : DecidablePred CanonicalAll
  | [] => inferInstanceAs (Decidable True)
  | t :: ts =>
    have := decidableCanonical t
    have := decidableCanonicalAll ts
    inferInstanceAs (Decidable (Canonical t ∧ CanonicalAll ts))

end

variable {s r : List Char} {t u : Term} {ts us : List Term} {p : Piece} {ps : List Piece}

/-! ### What is read is canonical -/

/-- A term for which a name stands is canonical. -/
lemma canonical_of_name (nm : Name s t) : t.Canonical := by
  cases nm with
  | anonymous =>
    rw [Canonical]
    exact .inl rfl
  | named id up ne =>
    rw [Canonical, String.toList_ofList]
    refine .inr ⟨id, ?_, by simpa using up⟩
    intro e
    exact ne (String.ofList_inj.mp e)
  | symbol id low =>
    rw [Canonical, String.toList_ofList]
    exact ⟨id, low⟩

/-- A row of canonical terms has an entry. -/
lemma canonicalAll_of_row (row : Row (fun _ t => Canonical t) s ts) :
    1 ≤ ts.length ∧ CanonicalAll ts := by
  induction row with
  | one can =>
    refine ⟨Nat.le_refl 1, ?_⟩
    rw [CanonicalAll, CanonicalAll]
    exact ⟨can, trivial⟩
  | more can _ ih =>
    refine ⟨Nat.le_add_left 1 _, ?_⟩
    rw [CanonicalAll]
    exact ⟨can, ih.2⟩

/-- A list of canonical terms is canonical and ends in the empty list. -/
lemma canonical_list (can : CanonicalAll ts) :
    (Term.list ts .nil).Canonical ∧ (Term.list ts .nil).EndsInNil := by
  induction ts with
  | nil =>
    show Canonical .nil ∧ EndsInNil .nil
    rw [Canonical, EndsInNil]
    exact ⟨trivial, trivial⟩
  | cons t ts ih =>
    rw [CanonicalAll] at can
    obtain ⟨can', ends⟩ := ih can.2
    show Canonical (.cons t (Term.list ts .nil)) ∧ EndsInNil (.cons t (Term.list ts .nil))
    rw [Canonical, EndsInNil]
    exact ⟨⟨can.1, can', ends⟩, ends⟩

/-- A term for which a text stands is canonical. -/
theorem canonical_of_spells (sp : Spells (· ≤ maxArity) s t) : t.Canonical := by
  refine sp.induct (P := fun _ t => Canonical t) ?padded ?int ?name ?record ?nil ?list ?paren
  case padded =>
    intro _ _ _ _ _ can _
    exact can
  case int =>
    intro _ _ _
    rw [Canonical]
    trivial
  case name =>
    intro _ _ nm
    exact canonical_of_name nm
  case record =>
    intro f _ _ ts id _ row le
    obtain ⟨pos, can⟩ := canonicalAll_of_row row
    rw [Canonical, String.toList_ofList]
    exact ⟨id, pos, le, can⟩
  case nil =>
    intro _ _
    rw [Canonical]
    trivial
  case list =>
    intro _ _ row
    exact (canonical_list (canonicalAll_of_row row).2).1
  case paren =>
    intro _ _ can
    exact can

/-! ### What is written stands for the term -/

/-- A written integer is a literal of it. -/
lemma literal_toString (z : Int) : Literal (toString z).toList z := by
  have digits : ∀ n : Nat, Digits (Nat.toDigits 10 n) := by
    intro n
    refine ⟨Nat.toDigits_ne_nil, ?_⟩
    intro c mem
    exact Nat.isDigit_of_mem_toDigits (by decide) (by decide) mem
  have value : ∀ n : Nat, Nat.ofDigitChars 10 (Nat.toDigits 10 n) 0 = n := by
    intro n
    exact Nat.ofDigitChars_ten_toDigits
  cases z with
  | ofNat n =>
    have lit := Literal.natural (digits n)
    rw [value] at lit
    rw [Int.toString_eq_repr, Int.repr, Nat.toList_repr]
    exact lit
  | negSucc n =>
    have lit := Literal.negative (digits (n + 1))
    rw [value] at lit
    rw [Int.toString_eq_repr, Int.repr, String.toList_append, Nat.toList_repr]
    exact lit

/-- The name of a canonical atom is a text of it. -/
lemma name_of_canonical_sym {name : String} (can : (Term.sym name).Canonical) :
    Name name.toList (.sym name) := by
  rw [Canonical] at can
  obtain ⟨id, low⟩ := can
  obtain ⟨c, r, e, _, _⟩ := identifier_head id
  rw [e] at id low
  have nm := Name.symbol id low
  rwa [← e, String.ofList_toList] at nm

/-- The name of a canonical variable, or an underscore, is a text of it. -/
lemma name_of_canonical_var {name : String} (can : (Term.var name).Canonical) :
    Name (varText name).toList (.var name) := by
  rw [Canonical] at can
  rcases can with rfl | ⟨id, ne, up⟩
  · exact .anonymous
  · obtain ⟨c, r, e, _, _⟩ := identifier_head id
    have named : varText name = name := by
      rw [varText, if_neg]
      intro empty
      rw [String.isEmpty_iff.mp empty] at e
      cases e
    have other : c :: r ≠ ['_'] := by
      intro e'
      apply ne
      rw [← String.toList_inj, e, e']
      rfl
    rw [named]
    rw [e] at id up
    have nm := Name.named id (by simpa using up) other
    rwa [← e, String.ofList_toList] at nm

/-- The text continues a row: behind the text of a term it makes a row with the terms after it. -/
def Continues (s : List Char) (ts : List Term) : Prop :=
  ∀ r t, Spells (· ≤ maxArity) r t → Row (Spells (· ≤ maxArity)) (r ++ s) (t :: ts)

/-- Nothing may follow the last term of a row. -/
lemma continues_nil : Continues [] [] := by
  intro r t sp
  rw [List.append_nil]
  exact .one sp

/-- A comma and the text of a term come before what follows that term. -/
lemma continues_cons (sp : Spells (· ≤ maxArity) s t) (con : Continues r ts) :
    Continues (", ".toList ++ s ++ r) (t :: ts) := by
  intro r' u sp'
  have blank : Blanks [' '] := .one (by decide)
  have row := Row.more sp' (Row.blanks_before blank (con s t sp))
  simpa using row

/-- The texts that a piece may come to. The bracket behind a tail that is no list is not among them:
no text stands for such a term. -/
def Piece.Text (p : Piece) (s : List Char) : Prop :=
  match p with
  | .term t => Spells (· ≤ maxArity) s t
  | .tail t => ∃ r ts, s = r ++ [']'] ∧ t = Term.list ts .nil ∧ Continues r ts
  | .args ts => ∃ r, s = r ++ [')'] ∧ Continues r ts
  | .close => False

/-- The pieces that canonical terms come to. -/
def Piece.Canonical : Piece → Prop
  | .term t => t.Canonical
  | .tail t => t.Canonical ∧ t.EndsInNil
  | .args ts => CanonicalAll ts
  | .close => False

/-- All pieces of a worklist are those of canonical terms. -/
def AllCanonical : List Piece → Prop
  | [] => True
  | p :: ps => p.Canonical ∧ AllCanonical ps

/-- A text of a worklist is made of texts of its pieces. -/
inductive Texts : List Piece → List Char → Prop where
  | nil : Texts [] []
  | cons {p : Piece} {ps : List Piece} {s r : List Char} : p.Text s → Texts ps r →
      Texts (p :: ps) (s ++ r)

/-- The result is the text `out` with a text of the worklist behind it. -/
def Writes (ps : List Piece) (out result : String) : Prop :=
  ∃ s, Texts ps s ∧ result.toList = out.toList ++ s

variable {out result x : String}

/-- A piece is written by its text. -/
lemma Writes.whole (wr : Writes ps (out ++ x) result) (txt : p.Text x.toList) :
    Writes (p :: ps) out result := by
  obtain ⟨s, txts, e⟩ := wr
  refine ⟨x.toList ++ s, .cons txt txts, ?_⟩
  rw [e, String.toList_append, List.append_assoc]

/-- A piece is written by a text and two pieces that take its place. -/
lemma Writes.join {q q' : Piece} (wr : Writes (q :: q' :: ps) (out ++ x) result)
    (txt : ∀ s r, q.Text s → q'.Text r → p.Text (x.toList ++ s ++ r)) :
    Writes (p :: ps) out result := by
  obtain ⟨_, txts, e⟩ := wr
  cases txts with
  | @cons _ _ s _ first txts =>
    cases txts with
    | @cons _ _ s' r second txts =>
      refine ⟨_, .cons (txt s s' first second) txts, ?_⟩
      rw [e, String.toList_append]
      simp

/-- The text of a record, as it is written piece by piece. -/
lemma text_record {name : String} (id : Identifier name.toList) (le : ts.length < maxArity)
    (sp : Spells (· ≤ maxArity) s t) (txt : (Piece.args ts).Text r) :
    Spells (· ≤ maxArity) (name.toList ++ "(".toList ++ s ++ r) (.record name (t :: ts)) := by
  obtain ⟨r, rfl, con⟩ := txt
  have sp' := Spells.record id .nil (con s t sp) le
  rw [String.ofList_toList] at sp'
  simpa using sp'

/-- The text of a list. -/
lemma text_list (sp : Spells (· ≤ maxArity) s t) (txt : (Piece.tail u).Text r) :
    Spells (· ≤ maxArity) ("[".toList ++ s ++ r) (.cons t u) := by
  obtain ⟨r, ts, rfl, rfl, con⟩ := txt
  have sp' : Spells (· ≤ maxArity) _ (.cons t (Term.list ts .nil)) := .list (con s t sp)
  simpa using sp'

/-- The text of the tail of a list. -/
lemma text_tail (sp : Spells (· ≤ maxArity) s t) (txt : (Piece.tail u).Text r) :
    (Piece.tail (.cons t u)).Text (", ".toList ++ s ++ r) := by
  obtain ⟨r, ts, rfl, rfl, con⟩ := txt
  refine ⟨_, t :: ts, ?_, rfl, continues_cons sp con⟩
  simp

/-- The text of the arguments of a record. -/
lemma text_args (sp : Spells (· ≤ maxArity) s t) (txt : (Piece.args ts).Text r) :
    (Piece.args (t :: ts)).Text (", ".toList ++ s ++ r) := by
  obtain ⟨r, rfl, con⟩ := txt
  refine ⟨_, ?_, continues_cons sp con⟩
  simp

/-- The printer writes a text of its worklist. -/
theorem writes_layout (pending : List Piece) (out : String) (can : AllCanonical pending) :
    Writes pending out (layout pending out) := by
  fun_induction layout pending out with
  | case1 out => exact ⟨[], .nil, (List.append_nil _).symm⟩
  | case2 out value rest ih => exact (ih can.2).whole (Spells.int (literal_toString _))
  | case3 out name rest ih => exact (ih can.2).whole (Spells.name (name_of_canonical_sym can.1))
  | case4 out name rest ih => exact (ih can.2).whole (Spells.name (name_of_canonical_var can.1))
  | case5 out rest ih => exact (ih can.2).whole (Spells.nil .nil)
  | case6 out name rest ih =>
    rw [AllCanonical, Piece.Canonical, Canonical] at can
    exact absurd can.1.2.1 (Nat.not_succ_le_zero 0)
  | case7 out name a as rest ih =>
    rw [AllCanonical, Piece.Canonical, Canonical, CanonicalAll] at can
    obtain ⟨⟨id, _, le, first, others⟩, cans⟩ := can
    rw [String.append_assoc] at ih ⊢
    apply (ih ⟨first, others, cans⟩).join
    intro s r sp txt
    rw [String.toList_append]
    exact text_record id le sp txt
  | case8 out car cdr rest ih =>
    rw [AllCanonical, Piece.Canonical, Canonical] at can
    exact (ih ⟨can.1.1, can.1.2, can.2⟩).join fun _ _ => text_list
  | case9 out rest ih => exact (ih can.2).whole ⟨[], [], rfl, rfl, continues_nil⟩
  | case10 out car cdr rest ih =>
    rw [AllCanonical, Piece.Canonical, Canonical] at can
    exact (ih ⟨can.1.1.1, can.1.1.2, can.2⟩).join fun _ _ => text_tail
  | case11 out t rest notNil notCons ih =>
    -- a tail that is no list does not end in the empty list
    cases t with
    | nil => exact absurd rfl notNil
    | cons car cdr => exact absurd rfl (notCons car cdr)
    | _ => exact absurd can.1.2 id
  | case12 out rest ih => exact (ih can.2).whole ⟨[], rfl, continues_nil⟩
  | case13 out a as rest ih =>
    rw [AllCanonical, Piece.Canonical, CanonicalAll] at can
    exact (ih ⟨can.1.1, can.1.2, can.2⟩).join fun _ _ => text_args
  | case14 out rest ih => exact absurd can.1 id

/-- The written form of a canonical term is a text of it. -/
theorem spells_render (can : t.Canonical) : Spells (· ≤ maxArity) t.render.toList t := by
  obtain ⟨s, txts, e⟩ := writes_layout [.term t] "" ⟨can, trivial⟩
  rw [render, e]
  cases txts with
  | cons sp txts =>
    cases txts
    rw [List.append_nil]
    exact sp

/-- A canonical term with a record whose name looks like a variable, a record of 255 arguments,
nested lists and the least integer. -/
def crowdedTerm : Term :=
  .record "_" [.cons (.int (-2147483648)) (.cons .nil .nil),
    .record "Big" (List.replicate 255 (.var "_G")), .var "", .sym "x_1"]

/-- The written form of a canonical term is read as that term, and what has been read from any text
is canonical, so its own written form gives it once more. -/
theorem parse_render :
    (∀ t : Term, t.Canonical → Term.parse t.render = .ok t) ∧
    ∀ (text : String) (t : Term), Term.parse text = .ok t →
      t.Canonical ∧ Term.parse t.render = .ok t := by
  have back : ∀ t : Term, t.Canonical → Term.parse t.render = .ok t := by
    intro t can
    exact parse_eq_ok.mpr (spells_render can)
  refine ⟨back, ?_⟩
  intro text t h
  have can := canonical_of_spells (parse_eq_ok.mp h)
  exact ⟨can, back t can⟩

/-- The term is read back, and so is one that was read from a text with white space, parentheses and
a negative zero. -/
theorem parse_render_crowdedTerm :
    crowdedTerm.Canonical ∧ Term.parse crowdedTerm.render = .ok crowdedTerm ∧
    Term.parse "( F\t(_,[ -0,(X)]) )\n" =
      .ok (.record "F" [.var "", .cons (.int 0) (.cons (.var "X") .nil)]) ∧
    Term.parse (Term.record "F" [.var "", .cons (.int 0) (.cons (.var "X") .nil)]).render =
      .ok (.record "F" [.var "", .cons (.int 0) (.cons (.var "X") .nil)]) := by
  have args : ∀ n, CanonicalAll (List.replicate n (.var "_G")) := by
    intro n
    induction n with
    | zero => trivial
    | succ n ih => exact ⟨by decide, ih⟩
  have big : (Term.record "Big" (List.replicate 255 (.var "_G"))).Canonical := by
    rw [Canonical, List.length_replicate]
    exact ⟨by decide, by decide, by decide, args 255⟩
  have can : crowdedTerm.Canonical :=
    ⟨by decide, by decide, by decide, by decide, big, by decide, by decide, trivial⟩
  have read : Term.parse "( F\t(_,[ -0,(X)]) )\n" =
      .ok (.record "F" [.var "", .cons (.int 0) (.cons (.var "X") .nil)]) := by cbv
  exact ⟨can, parse_render.1 _ can, read, (parse_render.2 _ _ read).2⟩

end TermHeap.Term
