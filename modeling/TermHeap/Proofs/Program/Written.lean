import TermHeap.Proofs.Program.Acceptance
import TermHeap.Proofs.Program.Grouping
import TermHeap.Proofs.Term.Written

/-!
# Written clauses and programs are read back

A clause of canonical terms is written as a text of that clause (`Clause.spells_render`). Nothing
that is written of it has a line feed or a percent sign (`Plain`), which is how the headings of a
written program can be told from its clauses. So a program is read back from the lines of its
written form that are no headings (`parse_clauseLines`): they are its clauses group by group, and
grouping these again changes nothing.
-/

namespace TermHeap
open Grammar

variable {s r : List Char} {t : Term} {ts : List Term} {c : Clause} {cs : List Clause}

/-! ### What is written has no line feed -/

/-- The text has neither a line feed nor a percent sign. -/
def Plain (s : String) : Prop := ∀ c ∈ s.toList, c ≠ '\n' ∧ c ≠ '%'

/-- It can be decided whether a text is plain. -/
instance : DecidablePred Plain := fun s => List.decidableBAll _ s.toList

namespace Plain

variable {x y : String}

/-- Plain texts may be put together. -/
lemma append (pl : Plain x) (pl' : Plain y) : Plain (x ++ y) := by
  intro c mem
  rw [String.toList_append] at mem
  rcases List.mem_append.mp mem with mem | mem
  · exact pl c mem
  · exact pl' c mem

/-- Identifiers are plain. -/
lemma identifier (id : Identifier x.toList) : Plain x := by
  intro c mem
  obtain ⟨_, _, _, _, word⟩ := Term.identifier_head id
  have hc := word c mem
  constructor
  · rintro rfl
    cases hc
  · rintro rfl
    cases hc

/-- Written integers are plain. -/
lemma literal {z : Int} (lit : Literal x.toList z) : Plain x := by
  have digit : ∀ {s : List Char}, Digits s → ∀ c ∈ s, c ≠ '\n' ∧ c ≠ '%' := by
    intro s ds c mem
    have dc := ds.2 c mem
    constructor
    · rintro rfl
      cases dc
    · rintro rfl
      cases dc
  rw [Plain]
  generalize x.toList = s at lit
  cases lit with
  | natural ds => exact digit ds
  | negative ds =>
    intro c mem
    rcases List.mem_cons.mp mem with rfl | mem
    · decide
    · exact digit ds c mem

/-- The printer adds nothing else to what it has written. -/
lemma layout (pending : List Term.Piece) (out : String) (can : Term.AllCanonical pending)
    (pl : Plain out) : Plain (Term.layout pending out) := by
  fun_induction Term.layout pending out with
  | case1 out => exact pl
  | case2 out value rest ih => exact ih can.2 (pl.append (literal (Term.literal_toString _)))
  | case3 out name rest ih =>
    have name := (Term.name_of_canonical_sym can.1).identifier
    exact ih can.2 (pl.append (identifier name))
  | case4 out name rest ih =>
    have name := (Term.name_of_canonical_var can.1).identifier
    exact ih can.2 (pl.append (identifier name))
  | case5 out rest ih => exact ih can.2 (pl.append (by decide))
  | case6 out name rest ih =>
    rw [Term.AllCanonical, Term.Piece.Canonical, Term.Canonical] at can
    exact ih can.2 ((pl.append (identifier can.1.1)).append (by decide))
  | case7 out name a as rest ih =>
    rw [Term.AllCanonical, Term.Piece.Canonical, Term.Canonical, Term.CanonicalAll] at can
    obtain ⟨⟨id, _, _, first, others⟩, cans⟩ := can
    exact ih ⟨first, others, cans⟩ ((pl.append (identifier id)).append (by decide))
  | case8 out car cdr rest ih =>
    rw [Term.AllCanonical, Term.Piece.Canonical, Term.Canonical] at can
    exact ih ⟨can.1.1, can.1.2, can.2⟩ (pl.append (by decide))
  | case9 out rest ih => exact ih can.2 (pl.append (by decide))
  | case10 out car cdr rest ih =>
    rw [Term.AllCanonical, Term.Piece.Canonical, Term.Canonical] at can
    exact ih ⟨can.1.1.1, can.1.1.2, can.2⟩ (pl.append (by decide))
  | case11 out t rest notNil notCons ih =>
    -- a tail that is no list does not end in the empty list
    cases t with
    | nil => exact absurd rfl notNil
    | cons car cdr => exact absurd rfl (notCons car cdr)
    | _ => exact absurd can.1.2 id
  | case12 out rest ih => exact ih can.2 (pl.append (by decide))
  | case13 out a as rest ih =>
    rw [Term.AllCanonical, Term.Piece.Canonical, Term.CanonicalAll] at can
    exact ih ⟨can.1.1, can.1.2, can.2⟩ (pl.append (by decide))
  | case14 out rest ih => exact absurd can.1 id

/-- The written form of a canonical term is plain. -/
lemma render (can : t.Canonical) : Plain t.render := layout [.term t] "" ⟨can, trivial⟩ nofun

/-- Plain texts may be put together with a plain one between them. -/
lemma intercalate {xs : List String} (pl : Plain x) (pls : ∀ y ∈ xs, Plain y) :
    Plain (x.intercalate xs) := by
  induction xs with
  | nil => exact nofun
  | cons y ys ih =>
    cases ys with
    | nil => exact pls y List.mem_cons_self
    | cons z zs =>
      rw [String.intercalate_cons_cons]
      refine ((pls y List.mem_cons_self).append pl).append (ih ?_)
      intro w mem
      exact pls w (List.mem_cons_of_mem y mem)

end Plain

/-! ### Clauses -/

/-- White space before a clause belongs to its text. -/
lemma Grammar.SpellsClause.blanks_before {w : List Char} (bl : Blanks w)
    (sp : SpellsClause (· ≤ maxArity) s c) : SpellsClause (· ≤ maxArity) (w ++ s) c := by
  cases sp with
  | clause sp body =>
    rw [← List.append_assoc]
    exact .clause (sp.blanks_before bl) body

/-- Every entry of a row has a text in it. -/
lemma Grammar.Row.mem {R : List Char → Term → Prop} (row : Row R s ts) (mem : t ∈ ts) :
    ∃ s, R s t := by
  induction row with
  | one rel =>
    obtain rfl := List.mem_singleton.mp mem
    exact ⟨_, rel⟩
  | more rel _ ih =>
    rcases List.mem_cons.mp mem with rfl | mem
    · exact ⟨_, rel⟩
    · exact ih mem

/-- Written terms with `, ` between any two of them make a row. -/
lemma row_intercalate (ne : ts ≠ []) (can : ∀ t ∈ ts, t.Canonical) :
    Row (Spells (· ≤ maxArity)) (", ".intercalate (ts.map Term.render)).toList ts := by
  induction ts with
  | nil => exact absurd rfl ne
  | cons t ts ih =>
    have sp := Term.spells_render (can t List.mem_cons_self)
    cases ts with
    | nil => exact .one sp
    | cons u us =>
      have row := ih (List.cons_ne_nil u us) fun v mem => can v (List.mem_cons_of_mem t mem)
      have blank : Blanks [' '] := .one (by decide)
      have more := Row.more sp (Row.blanks_before blank row)
      rw [List.map_cons, List.map_cons, String.intercalate_cons_cons, ← List.map_cons]
      simpa using more

namespace Clause

/-- The head of the clause is a record, and all its terms are canonical. -/
def Canonical (c : Clause) : Prop :=
  c.head.isRecord = true ∧ c.head.Canonical ∧ ∀ t ∈ c.body, t.Canonical

/-- It can be decided whether a clause is canonical. -/
instance : DecidablePred Canonical := fun c =>
  inferInstanceAs (Decidable (c.head.isRecord = true ∧ c.head.Canonical ∧ _))

/-- A clause for which a text stands is canonical. -/
lemma canonical_of_spells (sp : SpellsClause (· ≤ maxArity) s c) : c.Canonical := by
  cases sp with
  | clause sp body =>
    refine ⟨rfl, Term.canonical_of_spells sp, ?_⟩
    intro t mem
    cases body with
    | fact => cases mem
    | rule row =>
      obtain ⟨_, sp⟩ := row.mem mem
      exact Term.canonical_of_spells sp

end Clause

/-- The clauses of a text are canonical. -/
lemma Grammar.SpellsProgram.canonical (sp : SpellsProgram (· ≤ maxArity) s cs) :
    ∀ c ∈ cs, c.Canonical := by
  induction sp with
  | nil => exact nofun
  | cons sp _ ih =>
    intro c mem
    rcases List.mem_cons.mp mem with rfl | mem
    · exact Clause.canonical_of_spells sp
    · exact ih c mem

namespace Clause

/-- The written form of a canonical clause is a text of it. -/
theorem spells_render (can : c.Canonical) : SpellsClause (· ≤ maxArity) c.render.toList c := by
  obtain ⟨head, body⟩ := c
  obtain ⟨rec, hd, gl⟩ := can
  cases head with
  | record f ts =>
    have sp := Term.spells_render hd
    cases body with
    | nil => simpa [render, isFact] using SpellsClause.clause sp .fact
    | cons g gs =>
      have blank : Blanks [' '] := .one (by decide)
      have row := (row_intercalate (List.cons_ne_nil g gs) gl).blanks_before blank
      simpa [render, isFact] using SpellsClause.clause (sp.blanks_after blank) (.rule row)
  | _ => cases rec

/-- The name of a canonical clause is plain. -/
lemma plain_name (can : c.Canonical) : Plain c.name := by
  obtain ⟨head, body⟩ := c
  obtain ⟨rec, hd, _⟩ := can
  cases head with
  | record f ts =>
    rw [Term.Canonical] at hd
    exact .identifier hd.1
  | _ => cases rec

/-- The written form of a canonical clause is plain. -/
lemma plain_render (can : c.Canonical) : Plain c.render := by
  obtain ⟨_, hd, gl⟩ := can
  rw [render]
  split
  · exact (Plain.render hd).append (by decide)
  · refine (((Plain.render hd).append (by decide)).append (.intercalate (by decide) ?_)).append
      (by decide)
    intro x mem
    obtain ⟨t, mt, rfl⟩ := List.mem_map.mp mem
    exact Plain.render (gl t mt)

end Clause

/-! ### Lines -/

/-- The lines of a written program that are no headings. -/
def clauseLines (text : String) : String :=
  String.ofList (['\n'].intercalate
    ((text.toList.splitOn '\n').filter fun line => line.head? ≠ some '%'))

/-- Lines that are all ended by a line feed. -/
def unlines (ls : List (List Char)) : List Char := ls.flatMap (· ++ ['\n'])

/-- Line feeds between lines, and behind the last one, end them all. -/
lemma intercalate_lines (ls : List (List Char)) : ['\n'].intercalate (ls ++ [[]]) = unlines ls := by
  induction ls with
  | nil => rfl
  | cons l ls ih =>
    rw [unlines, List.flatMap_cons, ← unlines, ← ih]
    cases ls with
    | nil => simp [List.intercalate]
    | cons l' ls => simp [List.intercalate_cons_cons]

namespace Group

/-- The line above the clauses of a group. -/
def heading (g : Group) : List Char := ("% " ++ g.name ++ "/" ++ toString g.arity).toList

/-- The lines of a group: a heading, then a line for each clause. -/
def lines (g : Group) : List (List Char) := g.heading :: g.clauses.toList.map (·.render.toList)

/-- A group is written as its lines. -/
lemma toList_render (g : Group) : g.render.toList = unlines g.lines := by
  have rows : ∀ (cs : List Clause) (out : String),
      (cs.foldl (fun out c => out ++ c.render ++ "\n") out).toList =
        out.toList ++ unlines (cs.map (·.render.toList)) := by
    intro cs
    induction cs with
    | nil => simp [unlines]
    | cons c cs ih =>
      intro out
      rw [List.foldl_cons, ih]
      simp [unlines]
  rw [render, ← Array.foldl_toList, String.toList_append, rows]
  simp [unlines, lines, heading]

/-- A heading has no line feed, and a percent sign is its first character. -/
lemma heading_eq {g : Group} (pl : Plain g.name) : ∃ s, g.heading = '%' :: s ∧ '\n' ∉ s := by
  have pl' : Plain (" " ++ g.name ++ "/" ++ toString g.arity) := by
    have arity : Plain (toString g.arity) := .literal (Term.literal_toString (g.arity : Int))
    exact (((show Plain " " by decide).append pl).append (by decide)).append arity
  refine ⟨_, ?_, fun mem => (pl' _ mem).1 rfl⟩
  simp [heading]

end Group

/-- A plain text is one line, and it is no heading. -/
lemma Plain.keeps {x : String} (pl : Plain x) :
    '\n' ∉ x.toList ∧ x.toList.head? ≠ some '%' := by
  constructor
  · intro mem
    exact (pl _ mem).1 rfl
  · intro first
    exact (pl _ (List.mem_of_mem_head? first)).2 rfl

/-- A program is written as the lines of its groups. -/
lemma Program.toList_render (p : Program) :
    p.render.toList = unlines (p.groups.toList.flatMap Group.lines) := by
  have rows : ∀ (gs : List Group) (out : String),
      (gs.foldl (fun out g => out ++ g.render) out).toList =
        out.toList ++ unlines (gs.flatMap Group.lines) := by
    intro gs
    induction gs with
    | nil => simp [unlines]
    | cons g gs ih =>
      intro out
      rw [List.foldl_cons, ih, String.toList_append, Group.toList_render]
      simp [unlines]
  rw [render, ← Array.foldl_toList, rows]
  simp

/-- The lines that are no headings are those of the clauses. -/
lemma toList_clauseLines {p : Program} (names : ∀ g ∈ p.groups.toList, Plain g.name)
    (plain : ∀ c ∈ p.clauses, Plain c.render) :
    (clauseLines p.render).toList = unlines (p.clauses.map (·.render.toList)) := by
  have member : ∀ g ∈ p.groups.toList, ∀ c ∈ g.clauses.toList, Plain c.render := by
    intro g mg c mc
    exact plain c (List.mem_flatMap.mpr ⟨g, mg, mc⟩)
  have feedless : ∀ l ∈ p.groups.toList.flatMap Group.lines ++ [[]], '\n' ∉ l := by
    intro l mem
    rcases List.mem_append.mp mem with mem | mem
    · obtain ⟨g, mg, ml⟩ := List.mem_flatMap.mp mem
      rcases List.mem_cons.mp ml with rfl | ml
      · obtain ⟨s, eq, no⟩ := g.heading_eq (names g mg)
        rw [eq]
        simpa using no
      · obtain ⟨c, mc, rfl⟩ := List.mem_map.mp ml
        exact (member g mg c mc).keeps.1
    · rw [List.mem_singleton.mp mem]
      exact List.not_mem_nil
  have kept : ∀ g ∈ p.groups.toList,
      g.lines.filter (fun line => line.head? ≠ some '%') =
        g.clauses.toList.map (·.render.toList) := by
    intro g mg
    obtain ⟨s, eq, _⟩ := g.heading_eq (names g mg)
    rw [Group.lines, List.filter_cons_of_neg (by simp [eq]), List.filter_eq_self]
    intro l ml
    obtain ⟨c, mc, rfl⟩ := List.mem_map.mp ml
    simpa using (member g mg c mc).keeps.2
  rw [clauseLines, String.toList_ofList, p.toList_render, ← intercalate_lines,
    List.splitOn_intercalate _ feedless (by simp), List.filter_append, List.filter_flatMap,
    List.flatMap_congr kept, ← List.map_flatMap]
  exact intercalate_lines _

/-- Written clauses with a line feed behind each make a text of a program, but for white space at
its end. -/
lemma spells_lines (can : ∀ c ∈ cs, c.Canonical) {w : List Char} (bl : Blanks w) :
    ∃ s w', w ++ unlines (cs.map (·.render.toList)) = s ++ w' ∧
      SpellsProgram (· ≤ maxArity) s cs ∧ Blanks w' := by
  induction cs generalizing w with
  | nil => exact ⟨[], w, by simp [unlines], .nil, bl⟩
  | cons c cs ih =>
    have feed : Blanks ['\n'] := .one (by decide)
    obtain ⟨s, w', eq, sp, bl'⟩ := ih (fun d mem => can d (List.mem_cons_of_mem c mem)) feed
    have spc := (Clause.spells_render (can c List.mem_cons_self)).blanks_before bl
    refine ⟨_, w', ?_, .cons spc sp, bl'⟩
    rw [List.append_assoc, ← eq]
    simp [unlines]

/-- Written clauses of canonical terms, one to a line, are read as the program that they make. -/
theorem parse_unlines (can : ∀ c ∈ cs, c.Canonical) (text : String)
    (lines : text.toList = unlines (cs.map (·.render.toList))) :
    Program.parse text = .ok (cs.foldl Program.add .empty) := by
  obtain ⟨s, w, eq, sp, bl⟩ := spells_lines can .nil
  refine Program.parse_eq_ok.mpr ⟨s, w, cs, ?_, sp, bl, rfl⟩
  rw [lines, ← eq, List.nil_append]

/-- Canonical terms are the terms that are read from texts. A clause of such terms whose head is a
record is read back from its written form. A program that was read from any text is read back from
its written form without the headings, with the same groups in the same order and the same clauses
in each. -/
theorem parse_clauseLines :
    (∀ t : Term, t.Canonical ↔ ∃ text, Term.parse text = .ok t) ∧
    (∀ c : Clause, c.head.isRecord = true → c.head.Canonical → (∀ t ∈ c.body, t.Canonical) →
      Clause.parse c.render = .ok c) ∧
    ∀ (text : String) (p : Program), Program.parse text = .ok p →
      Program.parse (clauseLines p.render) = .ok p := by
  refine ⟨?_, ?_, ?_⟩
  · intro t
    constructor
    · intro can
      exact ⟨t.render, Term.parse_eq_ok.mpr (Term.spells_render can)⟩
    · rintro ⟨text, h⟩
      exact Term.canonical_of_spells (Term.parse_eq_ok.mp h)
  · intro c rec hd gl
    refine Clause.parse_eq_ok.mpr ⟨c.render.toList, [], ?_, ?_, .nil⟩
    · rw [List.append_nil]
    · exact Clause.spells_render ⟨rec, hd, gl⟩
  · intro text p h
    obtain ⟨s, w, cs, _, sp, _, eq⟩ := Program.parse_eq_ok.mp h
    have can : ∀ c ∈ p.clauses, c.Canonical := by
      intro c mem
      rw [eq, Program.clauses, Program.groups_foldl_add] at mem
      rcases mem_foldl_addToGroups mem with mem | mem
      · cases mem
      · exact sp.canonical c mem
    have names : ∀ g ∈ p.groups.toList, Plain g.name := by
      intro g mg
      obtain ⟨ne, keys⟩ := (Program.grouped eq).proper g mg
      obtain ⟨c, mc⟩ := List.exists_mem_of_ne_nil _ ne
      have name : c.name = g.name := congrArg Prod.fst (keys c mc)
      rw [← name]
      exact Clause.plain_name (can c (List.mem_flatMap.mpr ⟨g, mg, mc⟩))
    rw [parse_unlines can _ (toList_clauseLines names fun c mem => Clause.plain_render (can c mem)),
      Program.regroup eq]

/-- The clause `q(X) :- p(X), r.` -/
def ruleForQ : Clause := ⟨.record "q" [.var "X"], [.record "p" [.var "X"], .sym "r"]⟩

/-- Two clauses for `p` with one for `q` between them. -/
def interleaved : Program :=
  [⟨.record "p" [.int 1], []⟩, ruleForQ, ⟨.record "p" [.nil], []⟩].foldl Program.add .empty

/-- The clauses come out in another order than they were read in, and are read back in it. -/
theorem parse_clauseLines_interleaved :
    (Term.var "X").Canonical ∧ Clause.parse "q(X) :- p(X), r." = .ok ruleForQ ∧
    Program.parse "p(1).\nq(X) :- p(X), r.\np([]).\n" = .ok interleaved ∧
    clauseLines interleaved.render = "p(1).\np([]).\nq(X) :- p(X), r.\n" ∧
    Program.parse "p(1).\np([]).\nq(X) :- p(X), r.\n" = .ok interleaved := by
  have var : Term.parse "X" = .ok (.var "X") := by cbv
  have rule : ruleForQ.render = "q(X) :- p(X), r." := by cbv
  have clause := parse_clauseLines.2.1 ruleForQ rfl (by decide) (by decide)
  rw [rule] at clause
  have can : ∀ c ∈ [⟨.record "p" [.int 1], []⟩, ruleForQ, ⟨.record "p" [.nil], []⟩],
      c.Canonical := by decide
  have read : Program.parse "p(1).\nq(X) :- p(X), r.\np([]).\n" = .ok interleaved :=
    parse_unlines can _ (by cbv)
  have lines : clauseLines interleaved.render = "p(1).\np([]).\nq(X) :- p(X), r.\n" := by cbv
  have again := parse_clauseLines.2.2 _ _ read
  rw [lines] at again
  exact ⟨(parse_clauseLines.1 _).mpr ⟨"X", var⟩, clause, read, lines, again⟩

end TermHeap
