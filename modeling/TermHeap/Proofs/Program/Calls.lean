import TermHeap.Proofs.Program.Acceptance
import TermHeap.Proofs.Term.Abreast

/-!
# Calls on one reader

Terms, clauses and programs can be read from one text in any order, and reading can go on after an
error from where it stopped. Nothing but the cursor is carried from one call to the next. Two
readings of one text answer every call alike (`perform_alike`), so a call answers in the middle of a
text as it would at the beginning of what is left of it, up to the places that it tells, and the
places that it tells are places of the whole text (`perform_fresh`).
-/

namespace TermHeap

/-! ### Calls -/

/-- What a reader can be asked for. -/
inductive Call where
  | term
  | clause
  | program
  /-- Whether only white space is left. -/
  | atEnd
  /-- Fail unless only white space is left. -/
  | «end»
deriving DecidableEq, Repr

/-- What a call can answer. -/
inductive Answer where
  | term (value : Term)
  | clause (value : Clause)
  | program (value : Program)
  | atEnd (flag : Bool)
  | «end»

/-- An outcome with its value as an answer. -/
def Answer.of {α : Type} (f : α → Answer) (out : Parsed α) : Parsed Answer := (out.1.map f, out.2)

namespace Call

/-- Answer a call from what is left of a text. -/
def perform : Call → Cursor → Parsed Answer
  | .term, cur => Answer.of .term (Term.read cur)
  | .clause, cur => Answer.of .clause (Clause.read cur)
  | .program, cur => Answer.of .program (Program.read cur)
  | .atEnd, cur => (.ok (.atEnd cur.atEnd.1), cur.atEnd.2)
  | .end, cur => Answer.of (fun _ => .end) cur.readEnd

/-- The cursor after several calls, each of which goes on where the one before it stopped. -/
def performAll (calls : List Call) (cur : Cursor) : Cursor :=
  calls.foldl (fun cur call => (call.perform cur).2) cur

end Call

/-! ### Two readings of clauses and programs -/

namespace Twins

variable {tw : Twins} {cur cur' : Cursor} {α : Type} {out out' : Parsed α}

/-- Two readings read goals alike. -/
lemma readGoals_alike (done : List Term) (ab : tw.Abreast cur cur') :
    tw.Alike (Clause.readGoals done cur) (Clause.readGoals done cur') := by
  generalize len : cur.rest.length = n
  induction n using Nat.strongRecOn generalizing cur cur' done with
  | ind n ih =>
    have goal := read_alike ab
    rw [Clause.readGoals_eq, Clause.readGoals_eq done cur']
    generalize hr : Term.read cur = out, Term.read cur' = out' at goal ⊢
    cases goal with
    | error sm after => exact .error sm after
    | @ok t mid mid' stop =>
      have after := stop.skipBlanks
      dsimp only
      rw [after.peek?_eq]
      split
      · rename_i period
        exact .ok (after.next period)
      split
      · rename_i comma
        -- the goal that was read and the comma make what is left shorter
        have h₁ := Term.length_read_lt hr
        have h₂ := mid.length_skipBlanks_le
        have h₃ := Cursor.length_next_lt comma
        exact ih _ (by omega) _ (after.next comma) rfl
      · exact after.unexpected _

/-- Two readings read the bodies of clauses alike. -/
lemma readBody_alike (ab : tw.Abreast cur cur') :
    tw.Alike (Clause.readBody cur) (Clause.readBody cur') := by
  have blanks := ab.skipBlanks
  rw [Clause.readBody, Clause.readBody]
  dsimp only
  rw [blanks.peek?_eq]
  split
  · rename_i period
    exact .ok (blanks.next period)
  split
  · rename_i colon
    have neck := blanks.next colon
    rw [neck.peek?_eq]
    split
    · rename_i minus
      exact readGoals_alike [] (neck.next minus)
    · exact neck.unexpected _
  · exact blanks.unexpected _

/-- Two readings read clauses alike. -/
lemma readClause_alike (ab : tw.Abreast cur cur') :
    tw.Alike (Clause.read cur) (Clause.read cur') := by
  have head := read_alike ab.skipBlanks
  rw [Clause.read, Clause.read]
  generalize Term.read cur.skipBlanks = out, Term.read cur'.skipBlanks = out' at head ⊢
  cases head with
  | error sm after => exact .error sm after
  | @ok t mid mid' after =>
    dsimp only
    split
    · have body := readBody_alike after
      generalize Clause.readBody mid = out, Clause.readBody mid' = out' at body ⊢
      cases body with
      | error sm stop => exact .error sm stop
      | ok stop => exact .ok stop
    · exact .error ab.skipBlanks.same after

/-- Two readings read programs alike. -/
lemma readInto_alike (p : Program) (ab : tw.Abreast cur cur') :
    tw.Alike (Program.readInto p cur) (Program.readInto p cur') := by
  generalize len : cur.rest.length = n
  induction n using Nat.strongRecOn generalizing cur cur' p with
  | ind n ih =>
    have clause := readClause_alike ab
    rw [Program.readInto_eq, Program.readInto_eq p cur', (atEnd_alike ab).1]
    split
    · exact .ok ab.skipBlanks
    generalize hr : Clause.read cur = out, Clause.read cur' = out' at clause ⊢
    cases clause with
    | error sm after => exact .error sm after
    | ok after => exact ih _ (len ▸ Clause.length_read_lt hr) _ after rfl

/-- What is alike gives answers that are alike. -/
lemma Alike.of (al : tw.Alike out out') (f : α → Answer) :
    tw.Alike (Answer.of f out) (Answer.of f out') := by
  cases al with
  | ok ab => exact .ok ab
  | error sm ab => exact .error sm ab

/-- Both readings answer a call alike. -/
theorem perform_alike (call : Call) (ab : tw.Abreast cur cur') :
    tw.Alike (call.perform cur) (call.perform cur') := by
  cases call with
  | term => exact (read_alike ab).of _
  | clause => exact (readClause_alike ab).of _
  | program => exact (readInto_alike .empty ab).of _
  | atEnd =>
    obtain ⟨flag, stop⟩ := atEnd_alike ab
    rw [Call.perform, Call.perform, flag]
    exact .ok stop
  | «end» => exact (readEnd_alike ab).of _

end Twins

/-! ### Calls one after the other -/

/-- The same value, or the same cause, told at a place of the text behind `before` and at the same
place of that text by itself. -/
inductive SameOutcome (before text : List Char) {α : Type} :
    Except ParseError α → Except ParseError α → Prop where
  | ok {v} : SameOutcome before text (.ok v) (.ok v)
  | error {cause k} : k <+: text →
      SameOutcome before text (.error ⟨cause, .behind (before ++ k)⟩) (.error ⟨cause, .behind k⟩)

/-- A reading of what is left of a text has the same outcome as one of the whole. -/
lemma Twins.Alike.sameOutcome {before text : List Char} {α : Type} {out out' : Parsed α}
    (al : Twins.Alike ⟨text, .behind before, .start⟩ out out') :
    SameOutcome before text out.1 out'.1 := by
  cases al with
  | ok _ => exact .ok
  | error sm _ =>
    obtain ⟨k, pre, rfl, rfl⟩ := sm
    rw [Position.advanceAll_behind, Position.advanceAll_start]
    exact .error pre

/-- A call acts at the cursor `cur`, which stands behind the text `before`, as it does at the
beginning of what is left of the text: it passes the same text `passed` and has the same outcome. -/
structure Call.ActsFresh (call : Call) (cur : Cursor) (before passed left : List Char) : Prop where
  place : cur.pos = .behind before
  passes : cur.rest = passed ++ left
  here : (call.perform cur).2 = ⟨left, .behind (before ++ passed)⟩
  fresh : (call.perform (.ofString (String.ofList cur.rest))).2 = ⟨left, .behind passed⟩
  outcome : SameOutcome before cur.rest (call.perform cur).1
    (call.perform (.ofString (String.ofList cur.rest))).1

namespace Call

variable {cur : Cursor} {before : List Char}

/-- A call never goes back. -/
lemma exists_passes_perform (call : Call) (cur : Cursor) :
    ∃ s, cur.Passes s (call.perform cur).2 := by
  let tw : Twins := ⟨cur.rest, cur.pos, cur.pos⟩
  have start : tw.Abreast cur cur := Twins.Abreast.start
  obtain ⟨s, ps, _⟩ := (Twins.perform_alike call start).abreast
  exact ⟨s, ps⟩

/-- Several calls in turn never go back. -/
lemma exists_passes_performAll (calls : List Call) (cur : Cursor) :
    ∃ s, cur.Passes s (performAll calls cur) := by
  induction calls generalizing cur with
  | nil => exact ⟨[], rfl, rfl⟩
  | cons call calls ih =>
    obtain ⟨s, ps⟩ := call.exists_passes_perform cur
    obtain ⟨r, ps'⟩ := ih (call.perform cur).2
    exact ⟨s ++ r, ps.trans ps'⟩

/-- Wherever the cursor stands, a call acts as at the beginning. -/
lemma exists_actsFresh (call : Call) (hp : cur.pos = .behind before) :
    ∃ passed left, call.ActsFresh cur before passed left := by
  let tw : Twins := ⟨cur.rest, .behind before, .start⟩
  have start : tw.Abreast cur (.ofString (String.ofList cur.rest)) := by
    rw [Cursor.ofString, String.toList_ofList]
    exact ⟨[], ⟨rfl, hp⟩, rfl, rfl⟩
  have al := Twins.perform_alike call start
  obtain ⟨passed, ps, ps'⟩ := al.abreast
  have here := ps.2
  have there := ps'.2
  rw [Position.advanceAll_behind] at here
  rw [Position.advanceAll_start] at there
  refine ⟨passed, (call.perform cur).2.rest, hp, ps.1, ?_, ?_, al.sameOutcome⟩
  · rw [← here]
  · rw [← there, ← al.abreast.rest_eq]

end Call

/-- **A reader carries nothing from one call to the next.** After any calls on a text, whether they
failed or not, a call has the outcome and passes the text as at the beginning of what is left, and
tells the places of the whole text; the cursor moves forward and stays in the text. If the values of
all open terms are kept on one stack, reading a term does not depend on what is left there from
before and does not misuse it. -/
theorem perform_fresh (text : String) (history : List Call) (call : Call) :
    (∃ before passed left, text.toList = before ++ passed ++ left ∧
      call.ActsFresh (Call.performAll history (.ofString text)) before passed left) ∧
    (Call.performAll history (.ofString text)).pos.offset ≤
      (Call.performAll (history ++ [call]) (.ofString text)).pos.offset ∧
    (Call.performAll (history ++ [call]) (.ofString text)).pos.offset ≤ text.length ∧
    ∀ (old : OneStack.State) (cur : Cursor) (out : Parsed Term),
      OneStack.Runs old.start cur out ↔ out = Term.read cur := by
  obtain ⟨before, ps⟩ := Call.exists_passes_performAll history (.ofString text)
  have hp : (Call.performAll history (.ofString text)).pos = .behind before :=
    ps.2.trans (Position.advanceAll_start before)
  obtain ⟨passed, left, acts⟩ := call.exists_actsFresh hp
  have whole : text.toList = before ++ passed ++ left := by
    rw [List.append_assoc, ← acts.passes]
    exact ps.1
  have stop : Call.performAll (history ++ [call]) (.ofString text) =
      ⟨left, .behind (before ++ passed)⟩ := by
    rw [Call.performAll, List.foldl_append, ← Call.performAll]
    exact acts.here
  refine ⟨⟨before, passed, left, whole, acts⟩, ?_, ?_, ?_⟩
  · rw [hp, stop]
    exact (List.prefix_append before passed).length_le
  · rw [stop, ← String.length_toList, whole]
    exact (List.prefix_append (before ++ passed) left).length_le
  · intro old cur out
    exact OneStack.runs_start_iff old

end TermHeap
