import TermHeap.Program.Parser
import TermHeap.Proofs.Term.OneStack

/-!
# Texts are read exactly as the grammar derives them

What the readers of clauses and programs pass is what the grammar gives to clauses and programs, and
they read all of it. With the same fact about terms this makes the three ways to read a whole text
accept exactly their languages (`parse_exact`): a text of the language gives the value that it
stands for, any other text an error. There is no third outcome, also if the values of all open terms
are kept on one stack.
-/

namespace TermHeap
open Grammar

variable {cur mid after : Cursor} {s r w : List Char} {c : Clause} {cs : List Clause} {t : Term}
  {ts goals done : List Term}

/-! ### Clauses -/

/-- A term is read behind white space as it is there. -/
lemma Term.read_skipBlanks (cur : Cursor) : Term.read cur.skipBlanks = Term.read cur :=
  Term.readFrom_due_congr cur.skipBlanks_skipBlanks

namespace Clause

/-- What happens to goals: after each there is a comma or the period at the end. -/
lemma readGoals_eq (done : List Term) (cur : Cursor) :
    readGoals done cur =
      match Term.read cur with
      | (.error e, after) => (.error e, after)
      | (.ok goal, stop) =>
        if stop.skipBlanks.peek? = some '.' then
          (.ok (goal :: done).reverse, stop.skipBlanks.next)
        else if stop.skipBlanks.peek? = some ',' then
          readGoals (goal :: done) stop.skipBlanks.next
        else stop.skipBlanks.unexpected afterGoal := by
  rw [readGoals]
  split
  · rename_i h
    rw [h]
  · rename_i h
    rw [h]

/-- What is read as goals is a row of their texts, up to a period. -/
lemma row_of_readGoals (h : readGoals done cur = (.ok goals, after)) :
    ∃ s ts, Row (Spells (· ≤ maxArity)) s ts ∧ goals = done.reverse ++ ts ∧
      cur.Passes (s ++ ['.']) after := by
  fun_induction readGoals done cur with
  | case1 => cases h
  | case2 done cur goal stop hr blanks hp =>
    cases h
    obtain ⟨s, ps, sp⟩ := Term.spells_of_read hr
    obtain ⟨w, bl, _, ps'⟩ := stop.exists_skipBlanks
    refine ⟨s ++ w, [goal], .one (sp.blanks_after bl), by simp, ?_⟩
    exact (ps.trans ps').trans (Cursor.passes_next hp)
  | case3 done cur goal stop hr blanks _ hc ih =>
    obtain ⟨s, ps, sp⟩ := Term.spells_of_read hr
    obtain ⟨w, bl, _, ps'⟩ := stop.exists_skipBlanks
    obtain ⟨r, ts, row, eq, ps''⟩ := ih h
    refine ⟨_, goal :: ts, .more (sp.blanks_after bl) row, ?_, ?_⟩
    · rw [eq, List.reverse_cons, List.append_assoc]
      rfl
    · have all := ((ps.trans ps').trans (Cursor.passes_next hc)).trans ps''
      rwa [List.append_assoc, ← List.append_assoc [','], ← List.append_assoc] at all
  | case4 => cases h

/-- A row of texts up to a period is read as goals. -/
lemma readGoals_of_row (row : Row (Spells (· ≤ maxArity)) s ts) (ps : cur.Passes s mid)
    (stop : mid.Passes ['.'] after) (done : List Term) :
    readGoals done cur = (.ok (done.reverse ++ ts), after) := by
  induction row generalizing done cur with
  | one sp =>
    obtain ⟨last, e, h⟩ := Term.read_of_spells sp ps (.of_passes stop (by decide))
    obtain ⟨hp, hn⟩ := stop.next_eq
    rw [Cursor.skipBlanks_of_stops (stop.stops rfl)] at e
    rw [readGoals_eq, h]
    simp only [e, hp, if_true, hn, List.reverse_cons]
  | @more s t s' ts sp _ ih =>
    obtain ⟨comma, ps₁, ps₂⟩ := ps.split
    obtain ⟨next, ps₂, ps₃⟩ := ps₂.split (s := [','])
    obtain ⟨last, e, h⟩ := Term.read_of_spells sp ps₁ (.of_passes ps₂ (by decide))
    obtain ⟨hp, hn⟩ := ps₂.next_eq
    rw [Cursor.skipBlanks_of_stops (ps₂.stops rfl)] at e
    rw [readGoals_eq, h]
    simp only [e, hp, hn, ih ps₃]
    simp

/-- What is read as a body is a text of it, white space before it aside. -/
lemma body_of_readBody (h : readBody cur = (.ok goals, after)) :
    ∃ w s, Blanks w ∧ SpellsBody (· ≤ maxArity) s goals ∧ cur.Passes (w ++ s) after := by
  obtain ⟨w, bl, _, ps⟩ := cur.exists_skipBlanks
  rw [readBody] at h
  split at h
  · rename_i hp
    cases h
    exact ⟨w, ['.'], bl, .fact, ps.trans (Cursor.passes_next hp)⟩
  split at h
  · rename_i hc
    dsimp only at h
    split at h
    · rename_i hm
      obtain ⟨s, ts, row, eq, ps'⟩ := row_of_readGoals h
      cases eq
      have neck := (Cursor.passes_next hc).trans (Cursor.passes_next hm)
      exact ⟨w, _, bl, .rule row, ps.trans (neck.trans ps')⟩
    · cases h
  · cases h

/-- A text of a body is read as that body, whatever follows. -/
lemma readBody_of_body (body : SpellsBody (· ≤ maxArity) s goals) (ps : mid.Passes s after)
    (e : cur.skipBlanks = mid.skipBlanks) : readBody cur = (.ok goals, after) := by
  rw [readBody, e]
  cases body with
  | fact =>
    obtain ⟨hp, hn⟩ := ps.next_eq
    simp only [Cursor.skipBlanks_of_stops (ps.stops rfl), hp, if_true, hn]
  | @rule s goals row =>
    rw [Cursor.skipBlanks_of_stops (ps.stops rfl)]
    obtain ⟨period, ps, ps₃⟩ := ps.split
    obtain ⟨first, ps₁, ps₂⟩ := ps.split
    obtain ⟨dash, ps₀, ps₁⟩ := ps₁.split (s := [':'])
    obtain ⟨hc, hn⟩ := ps₀.next_eq
    obtain ⟨hm, hn'⟩ := ps₁.next_eq
    simp only [hc, hn, hm, hn', readGoals_of_row row ps₂ ps₃]
    simp

/-- What may follow the head of a clause may follow a term. -/
lemma follows_of_body (body : SpellsBody (· ≤ maxArity) s goals) (ps : cur.Passes s after) :
    Term.Follows cur.rest := by
  cases body with
  | fact => exact .of_passes ps (by decide)
  | rule _ => exact .of_passes ps (by decide)

/-- What is read as a clause is a text of that clause. -/
theorem spells_of_read (h : read cur = (.ok c, after)) :
    ∃ s, cur.Passes s after ∧ SpellsClause (· ≤ maxArity) s c := by
  rw [read, Term.read_skipBlanks] at h
  split at h
  · cases h
  · rename_i head stop hr
    obtain ⟨s, ps, sp⟩ := Term.spells_of_read hr
    split at h
    · rename_i isRecord
      split at h
      · cases h
      · rename_i hb
        cases h
        obtain ⟨w, r, bl, body, ps'⟩ := body_of_readBody hb
        cases head with
        | record f ts =>
          refine ⟨_, ps.trans ps', ?_⟩
          rw [← List.append_assoc]
          exact .clause (sp.blanks_after bl) body
        | _ => cases isRecord
    · cases h

/-- A text of a clause is read as that clause, whatever follows. -/
theorem read_of_spells (sp : SpellsClause (· ≤ maxArity) s c) (ps : cur.Passes s after) :
    read cur = (.ok c, after) := by
  cases sp with
  | clause sp body =>
    obtain ⟨mid, ps₁, ps₂⟩ := ps.split
    obtain ⟨stop, e, h⟩ := Term.read_of_spells sp ps₁ (follows_of_body body ps₂)
    rw [read, Term.read_skipBlanks, h]
    simp only [Term.isRecord, if_true, readBody_of_body body ps₂ e]

/-- A clause is read behind white space as it is there. -/
lemma read_skipBlanks (cur : Cursor) : read cur.skipBlanks = read cur := by
  rw [read, cur.skipBlanks_skipBlanks]
  rfl

/-- Where only white space is left there is no clause. -/
lemma not_atEnd_of_read (h : read cur = (.ok c, after)) : ¬ cur.atEnd.1 = true := by
  rw [← read_skipBlanks] at h
  have lt := length_read_lt h
  intro atEnd
  rw [List.isEmpty_iff.mp atEnd] at lt
  exact absurd lt (Nat.not_lt_zero _)

end Clause

/-! ### Programs -/

namespace Program

/-- What happens to clauses: one after the other is added until the text ends. -/
lemma readInto_eq (p : Program) (cur : Cursor) :
    readInto p cur =
      if cur.atEnd.1 = true then (.ok p, cur.skipBlanks)
      else
        match Clause.read cur with
        | (.error e, after) => (.error e, after)
        | (.ok c, after) => readInto (p.add c) after := by
  rw [readInto]
  split
  · rename_i stop he
    rw [he, if_pos rfl, show cur.skipBlanks = stop from congrArg Prod.snd he]
  · rename_i start he
    rw [he, if_neg Bool.false_ne_true, ← Clause.read_skipBlanks cur,
      show cur.skipBlanks = start from congrArg Prod.snd he]
    split
    · rename_i hc
      rw [hc]
    · rename_i hc
      rw [hc]

/-- What is read as a program is a row of clauses, with white space behind it. -/
lemma spells_of_readInto {p q : Program} (h : readInto p cur = (.ok q, after)) :
    ∃ s w cs, cur.rest = s ++ w ∧ SpellsProgram (· ≤ maxArity) s cs ∧ Blanks w ∧
      q = cs.foldl Program.add p := by
  generalize len : cur.rest.length = n
  induction n using Nat.strongRecOn generalizing cur p with
  | ind n ih =>
    rw [readInto_eq] at h
    split at h
    · rename_i atEnd
      cases h
      exact ⟨[], cur.rest, [], rfl, .nil, Cursor.atEnd_iff.mp atEnd, rfl⟩
    · split at h
      · cases h
      · rename_i c next hc
        obtain ⟨s, ps, sp⟩ := Clause.spells_of_read hc
        obtain ⟨r, w, cs, eq, sp', bl, e⟩ := ih _ (len ▸ Clause.length_read_lt hc) h rfl
        refine ⟨s ++ r, w, c :: cs, ?_, .cons sp sp', bl, e⟩
        rw [ps.1, eq, List.append_assoc]

/-- A row of clauses with white space behind it is read as a program. -/
lemma readInto_of_spells (sp : SpellsProgram (· ≤ maxArity) s cs) (ps : cur.Passes s mid)
    (bl : Blanks mid.rest) (p : Program) :
    (readInto p cur).1 = .ok (cs.foldl Program.add p) := by
  induction sp generalizing cur p with
  | nil =>
    have atEnd : cur.atEnd.1 = true := by
      rw [Cursor.atEnd_iff, ps.1]
      exact bl
    rw [readInto_eq, if_pos atEnd]
    rfl
  | @cons s c r cs sp _ ih =>
    obtain ⟨next, ps, ps'⟩ := ps.split
    have hc := Clause.read_of_spells sp ps
    rw [readInto_eq, if_neg (Clause.not_atEnd_of_read hc), hc]
    exact ih ps' (p.add c)

end Program

/-! ### Whole texts -/

/-- A reading gives exactly the values for which the text stands, and an error if there is none. -/
def Decides {α : Type} (reading : Except ParseError α) (stands : α → Prop) : Prop :=
  (∀ v, reading = .ok v ↔ stands v) ∧ ((∀ v, ¬ stands v) → ∃ e, reading = .error e)

/-- A reading decides what it accepts, as it gives a value or an error. -/
lemma Decides.of_iff {α : Type} {reading : Except ParseError α} {stands : α → Prop}
    (iff : ∀ v, reading = .ok v ↔ stands v) : Decides reading stands := by
  refine ⟨iff, ?_⟩
  intro none
  cases reading with
  | error e => exact ⟨e, rfl⟩
  | ok v => exact absurd ((iff v).mp rfl) (none v)

/-- A whole text is read as a clause if it is one, with white space behind it. -/
lemma Clause.parse_eq_ok {text : String} :
    Clause.parse text = .ok c ↔
      ∃ s w, text.toList = s ++ w ∧ SpellsClause (· ≤ maxArity) s c ∧ Blanks w := by
  rw [Clause.parse, Cursor.readWhole_eq_ok]
  constructor
  · intro ⟨after, h, bl⟩
    obtain ⟨s, ps, sp⟩ := Clause.spells_of_read h
    exact ⟨s, after.rest, ps.1, sp, bl⟩
  · intro ⟨s, w, eq, sp, bl⟩
    obtain ⟨after, ps, rfl⟩ := Cursor.passes_ofString eq
    exact ⟨after, Clause.read_of_spells sp ps, bl⟩

/-- A whole text is read as a program if it is one, with white space behind it. -/
lemma Program.parse_eq_ok {text : String} {p : Program} :
    Program.parse text = .ok p ↔
      ∃ s w cs, text.toList = s ++ w ∧ SpellsProgram (· ≤ maxArity) s cs ∧ Blanks w ∧
        p = cs.foldl Program.add .empty := by
  constructor
  · intro h
    exact Program.spells_of_readInto (Prod.ext h rfl)
  · intro ⟨s, w, cs, eq, sp, bl, e⟩
    obtain ⟨mid, ps, rfl⟩ := Cursor.passes_ofString eq
    rw [e]
    exact Program.readInto_of_spells sp ps bl .empty

/-- The texts that are read as terms, clauses and programs are exactly those of the grammar, with
records of up to 255 arguments, and they are read as what they stand for. Every other text gives an
error. No term is read, at whatever place of a text, by taking from stacks what is not on them. -/
theorem parse_exact (text : String) :
    Decides (Term.parse text) (Spells (· ≤ 255) text.toList) ∧
    Decides (Clause.parse text) (fun c =>
      ∃ s w, text.toList = s ++ w ∧ SpellsClause (· ≤ 255) s c ∧ Blanks w) ∧
    Decides (Program.parse text) (fun p =>
      ∃ s w cs, text.toList = s ++ w ∧ SpellsProgram (· ≤ 255) s cs ∧ Blanks w ∧
        p = cs.foldl Program.add .empty) ∧
    ∀ cur, OneStack.Runs ⟨[], [], .one .term⟩ cur (Term.read cur) := by
  refine ⟨.of_iff ?_, .of_iff ?_, .of_iff ?_, OneStack.runs_read⟩
  · intro t
    exact Term.parse_eq_ok
  · intro c
    exact Clause.parse_eq_ok
  · intro p
    exact Program.parse_eq_ok

end TermHeap
