import Mathlib.Data.List.Forall2
import TermHeap.Proofs.Term.Acceptance
import TermHeap.Proofs.Text.Abreast

/-!
# Reading a term from two places

Two readings of one text open and close the same terms: they keep the same open terms up to the
places of their records (`FrameAlike`), and a step of both leads to the same kind of state with
cursors abreast, or ends both alike (`readStep_alike`). By induction along one of the runs both
readings of a term have outcomes that are alike (`read_alike`), and so have both tests for the end
of the text (`readEnd_alike`).
-/

namespace TermHeap.Twins
open Term (Frame ReadState ReadStep)

/-- The same open term, begun at the same place of the text. -/
inductive FrameAlike (tw : Twins) : Frame → Frame → Prop where
  | paren : FrameAlike tw .paren .paren
  | list {es} : FrameAlike tw (.list es) (.list es)
  | record {p p' name es} : tw.Same p p' → FrameAlike tw (.record p name es) (.record p' name es)

/-- The same kind of state with the same open terms. -/
inductive StateAlike (tw : Twins) : ReadState → ReadState → Prop where
  | due {fs fs'} : List.Forall₂ tw.FrameAlike fs fs' → StateAlike tw (.due fs) (.due fs')
  | ended {t fs fs'} : List.Forall₂ tw.FrameAlike fs fs' →
      StateAlike tw (.ended t fs) (.ended t fs')

/-- Both go on in the same kind of state, or both have ended alike. -/
inductive StepAlike (tw : Twins) : ReadStep × Cursor → ReadStep × Cursor → Prop where
  | more {st st' cur cur'} : tw.StateAlike st st' → tw.Abreast cur cur' →
      StepAlike tw (.more st, cur) (.more st', cur')
  | done {result result' cur cur'} : tw.Alike (result, cur) (result', cur') →
      StepAlike tw (.done result, cur) (.done result', cur')

variable {tw : Twins} {cur cur' : Cursor} {fs fs' : List Frame} {frame frame' : Frame} {c : Char}
  {st st' : ReadState} {t : Term}

/-- The same terms are open, so the same may follow. -/
lemma FrameAlike.after_eq (fa : tw.FrameAlike frame frame') : frame'.after = frame.after := by
  cases fa <;> rfl

/-- Both readings begin a term alike. -/
lemma begin_alike (fa : List.Forall₂ tw.FrameAlike fs fs') (ab : tw.Abreast cur cur')
    (hc : cur.peek? = some c) : tw.StepAlike (Term.begin fs c cur) (Term.begin fs' c cur') := by
  have next := ab.next hc
  rw [Term.begin, Term.begin]
  by_cases paren : c = '('
  · rw [if_pos paren, if_pos paren]
    exact .more (.due (.cons .paren fa)) next
  rw [if_neg paren, if_neg paren]
  by_cases bracket : c = '['
  · have inside := next.skipBlanks
    rw [if_pos bracket, if_pos bracket]
    dsimp only
    rw [inside.peek?_eq]
    by_cases close : cur.next.skipBlanks.peek? = some ']'
    · rw [if_pos close, if_pos close]
      exact .more (.ended fa) (inside.next close)
    · rw [if_neg close, if_neg close]
      exact .more (.due (.cons .list fa)) inside
  rw [if_neg bracket, if_neg bracket]
  by_cases integer : (c = '-' || isDigit c) = true
  · rw [if_pos integer, if_pos integer]
    have integer := readInteger_alike ab
    generalize cur.readInteger = out, cur'.readInteger = out' at integer ⊢
    cases integer with
    | ok after => exact .more (.ended fa) after
    | error sm after => exact .done (.error sm after)
  rw [if_neg integer, if_neg integer]
  by_cases ident : isIdentStart c = true
  · have after := (ab.skip isIdentChar).skipBlanks
    rw [if_pos ident, if_pos ident]
    dsimp only
    rw [after.peek?_eq, ab.span_eq]
    by_cases args : (cur.skip isIdentChar).skipBlanks.peek? = some '('
    · rw [if_pos args, if_pos args]
      exact .more (.due (.cons (.record ab.same) fa)) (after.next args)
    · rw [if_neg args, if_neg args]
      exact .more (.ended fa) after
  · rw [if_neg ident, if_neg ident]
    exact .done (ab.fails _)

/-- Both readings close a record alike. -/
lemma closeRecord_alike (fa : List.Forall₂ tw.FrameAlike fs fs') {p p' : Position}
    (sm : tw.Same p p') (name : String) (es : List Term) (ab : tw.Abreast cur cur') :
    tw.StepAlike (Term.closeRecord p name es fs, cur) (Term.closeRecord p' name es fs', cur') := by
  rw [Term.closeRecord, Term.closeRecord]
  split
  · exact .more (.ended fa) ab
  · exact .done (.error sm ab)

/-- Both readings go on alike with the innermost open term. -/
lemma resume_alike (fr : tw.FrameAlike frame frame') (fa : List.Forall₂ tw.FrameAlike fs fs')
    (ab : tw.Abreast cur cur') (hc : cur.peek? = some c) :
    tw.StepAlike (Term.resume t frame fs c cur) (Term.resume t frame' fs' c cur') := by
  have next := ab.next hc
  cases fr with
  | paren =>
    rw [Term.resume_paren, Term.resume_paren]
    split
    · exact .more (.ended fa) next
    · exact .done (ab.fails _)
  | list =>
    rw [Term.resume_list, Term.resume_list]
    split
    · exact .more (.due (.cons .list fa)) next
    split
    · exact .more (.ended fa) next
    · exact .done (ab.fails _)
  | record sm =>
    rw [Term.resume_record, Term.resume_record]
    split
    · exact .more (.due (.cons (.record sm) fa)) next
    split
    · exact closeRecord_alike fa sm _ _ next
    · exact .done (ab.fails _)

/-- A step of both readings keeps them alike. -/
theorem readStep_alike (sa : tw.StateAlike st st') (ab : tw.Abreast cur cur') :
    tw.StepAlike (Term.readStep st cur) (Term.readStep st' cur') := by
  have blanks := ab.skipBlanks
  cases sa with
  | due fa =>
    rw [Term.readStep, Term.readStep]
    rw [blanks.peek?_eq]
    cases hc : cur.skipBlanks.peek? with
    | none => exact .done (blanks.fails _)
    | some c => exact begin_alike fa blanks hc
  | ended fa =>
    cases fa with
    | nil => exact .done (.ok ab)
    | cons fr fa =>
      rw [Term.readStep, Term.readStep]
      rw [blanks.peek?_eq, fr.after_eq]
      cases hc : cur.skipBlanks.peek? with
      | none => exact .done (blanks.fails _)
      | some c => exact resume_alike fr fa blanks hc

/-- Runs from states that are alike have outcomes that are alike. -/
lemma readFrom_alike (sa : tw.StateAlike st st') (ab : tw.Abreast cur cur') :
    tw.Alike (Term.readFrom st cur) (Term.readFrom st' cur') := by
  fun_induction Term.readFrom st cur generalizing st' cur' with
  | case1 st cur result after hs =>
    have step := readStep_alike sa ab
    rw [Term.readFrom_eq st' cur']
    rw [hs] at step
    generalize Term.readStep st' cur' = out at step ⊢
    cases step with
    | done al => exact al
  | case2 st cur next mid hs ih =>
    have step := readStep_alike sa ab
    rw [Term.readFrom_eq st' cur']
    rw [hs] at step
    generalize Term.readStep st' cur' = out at step ⊢
    cases step with
    | more sa ab => exact ih sa ab

/-- Both readings of a term have the same outcome. -/
theorem read_alike (ab : tw.Abreast cur cur') : tw.Alike (Term.read cur) (Term.read cur') :=
  readFrom_alike (.due .nil) ab

/-- Both see the end of the text, or neither does. -/
lemma atEnd_alike (ab : tw.Abreast cur cur') :
    cur'.atEnd.1 = cur.atEnd.1 ∧ tw.Abreast cur.atEnd.2 cur'.atEnd.2 := by
  refine ⟨?_, ab.skipBlanks⟩
  rw [Cursor.atEnd, Cursor.atEnd, ab.skipBlanks.rest_eq]

/-- Both readings are refused alike where the text does not end. -/
lemma readEnd_alike (ab : tw.Abreast cur cur') : tw.Alike cur.readEnd cur'.readEnd := by
  have blanks := ab.skipBlanks
  rw [Cursor.readEnd, Cursor.readEnd, Cursor.atEnd, Cursor.atEnd, blanks.rest_eq]
  cases cur.skipBlanks.rest.isEmpty with
  | true => exact .ok blanks
  | false => exact blanks.unexpected _

end TermHeap.Twins
