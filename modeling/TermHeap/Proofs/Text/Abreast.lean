import TermHeap.Proofs.Text.Lexeme

/-!
# Two readings of one text

`Position.behind s` is the place behind a text in numbers: one line more than it has line feeds, the
column behind its last line, and its length. That is what stepping over the text counts
(`Position.advanceAll_behind`).

`Twins` are two readings of one text that count from places of their own. Their cursors are
`Abreast` when both have passed the same beginning of the text, and their outcomes are `Alike` when
they have the same value or the same cause, told at the same place of the text. Cursors abreast see
the same characters, so what is done with one character or with one integer literal keeps them
abreast (`Abreast.next`, `Abreast.skip`, `readInteger_alike`).
-/

namespace TermHeap

/-! ### Places in numbers -/

namespace Position

/-- The place behind a text: lines and columns count from 1, the offset from 0. -/
def behind (s : List Char) : Position :=
  ⟨1 + s.count '\n', 1 + (s.reverse.takeWhile (· ≠ '\n')).length, s.length⟩

/-- The place behind one character more. -/
lemma behind_append_one (s : List Char) (c : Char) :
    behind (s ++ [c]) = (behind s).advance c := by
  rw [advance, behind, List.reverse_append, List.reverse_singleton, List.singleton_append,
    List.count_append, List.length_append, List.takeWhile_cons]
  by_cases feed : c = '\n'
  · subst feed
    rfl
  · have other : decide (c ≠ '\n') = true := decide_eq_true feed
    rw [if_neg feed, if_pos other, List.count_singleton, if_neg (by simpa using feed),
      List.length_cons]
    rfl

/-- Stepping over a text counts its line feeds, its last line and its characters. -/
lemma advanceAll_behind (s r : List Char) : (behind s).advanceAll r = behind (s ++ r) := by
  induction r generalizing s with
  | nil => rw [List.append_nil, advanceAll, List.foldl_nil]
  | cons c r ih =>
    rw [advanceAll, List.foldl_cons, ← behind_append_one, ← advanceAll, ih, List.append_assoc,
      List.singleton_append]

/-- Stepping over a text from its start leads to the place behind it. -/
lemma advanceAll_start (s : List Char) : start.advanceAll s = behind s := advanceAll_behind [] s

end Position

/-! ### Readings from two places -/

/-- Two readings of a text and the places from which they count. -/
structure Twins where
  text : List Char
  left : Position
  right : Position

namespace Twins

/-- The places of both readings behind the same beginning of the text. -/
def Same (tw : Twins) (p p' : Position) : Prop :=
  ∃ k, k <+: tw.text ∧ p = tw.left.advanceAll k ∧ p' = tw.right.advanceAll k

/-- Both readings have passed the same beginning of the text. -/
def Abreast (tw : Twins) (cur cur' : Cursor) : Prop :=
  ∃ k, Cursor.Passes ⟨tw.text, tw.left⟩ k cur ∧ Cursor.Passes ⟨tw.text, tw.right⟩ k cur'

/-- The same value, or the same cause at the same place, and cursors abreast. -/
inductive Alike (tw : Twins) {α : Type} : Parsed α → Parsed α → Prop where
  | ok {v cur cur'} : tw.Abreast cur cur' → Alike tw (.ok v, cur) (.ok v, cur')
  | error {cause p p' cur cur'} : tw.Same p p' → tw.Abreast cur cur' →
      Alike tw (.error ⟨cause, p⟩, cur) (.error ⟨cause, p'⟩, cur')

variable {tw : Twins} {cur cur' mid mid' : Cursor} {k : List Char} {c : Char} {α : Type}

/-- Both readings begin abreast. -/
lemma Abreast.start : tw.Abreast ⟨tw.text, tw.left⟩ ⟨tw.text, tw.right⟩ :=
  ⟨[], ⟨rfl, rfl⟩, rfl, rfl⟩

/-- The same text is left to both. -/
lemma Abreast.rest_eq (ab : tw.Abreast cur cur') : cur'.rest = cur.rest := by
  obtain ⟨k, ps, ps'⟩ := ab
  exact List.append_cancel_left (ps'.1.symm.trans ps.1)

/-- Both see the same character. -/
lemma Abreast.peek?_eq (ab : tw.Abreast cur cur') : cur'.peek? = cur.peek? := by
  rw [Cursor.peek?, Cursor.peek?, ab.rest_eq]

/-- Both see the same run of characters. -/
lemma Abreast.span_eq (ab : tw.Abreast cur cur') (p : Char → Bool) : cur'.span p = cur.span p := by
  rw [Cursor.span, Cursor.span, ab.rest_eq]

/-- Both are at the same place of the text. -/
lemma Abreast.same (ab : tw.Abreast cur cur') : tw.Same cur.pos cur'.pos := by
  obtain ⟨k, ps, ps'⟩ := ab
  exact ⟨k, ⟨cur.rest, ps.1.symm⟩, ps.2, ps'.2⟩

/-- Passing the same text keeps readings abreast. -/
lemma Abreast.passes (ab : tw.Abreast cur cur') (ps : cur.Passes k mid) (ps' : cur'.Passes k mid') :
    tw.Abreast mid mid' := by
  obtain ⟨j, before, before'⟩ := ab
  exact ⟨j ++ k, before.trans ps, before'.trans ps'⟩

/-- Skipping characters keeps readings abreast. -/
lemma Abreast.skip (ab : tw.Abreast cur cur') (p : Char → Bool) :
    tw.Abreast (cur.skip p) (cur'.skip p) := by
  have ps' := (cur'.exists_skip p).2.2
  rw [ab.span_eq] at ps'
  exact ab.passes (cur.exists_skip p).2.2 ps'

/-- Skipping white space keeps readings abreast. -/
lemma Abreast.skipBlanks (ab : tw.Abreast cur cur') :
    tw.Abreast cur.skipBlanks cur'.skipBlanks := ab.skip isBlank

/-- Taking a character keeps readings abreast. -/
lemma Abreast.next (ab : tw.Abreast cur cur') (hc : cur.peek? = some c) :
    tw.Abreast cur.next cur'.next :=
  ab.passes (Cursor.passes_next hc) (Cursor.passes_next (ab.peek?_eq.trans hc))

/-- Both fail at the next character. -/
lemma Abreast.fails (ab : tw.Abreast cur cur') (cause : ParseCause) :
    tw.Alike (α := α) (.error ⟨cause, cur.pos⟩, cur) (.error ⟨cause, cur'.pos⟩, cur') :=
  .error ab.same ab

/-- Both fail alike at what was not expected. -/
lemma Abreast.unexpected (ab : tw.Abreast cur cur') (tokens : Expected) :
    tw.Alike (α := α) (cur.unexpected tokens) (cur'.unexpected tokens) := by
  rw [Cursor.unexpected, Cursor.unexpected, ab.peek?_eq]
  exact ab.fails _

/-- Readings with outcomes that are alike are abreast. -/
lemma Alike.abreast {out out' : Parsed α} (al : tw.Alike out out') : tw.Abreast out.2 out'.2 := by
  cases al with
  | ok ab => exact ab
  | error _ ab => exact ab

/-! ### Integer literals -/

/-- Both read the digits of an integer alike. -/
lemma readDigits_alike (ab : tw.Abreast cur cur') {p p' : Position} (sm : tw.Same p p')
    (negative : Bool) : tw.Alike (cur.readDigits p negative) (cur'.readDigits p' negative) := by
  simp only [Cursor.readDigits, ab.span_eq]
  split
  · exact .error sm (ab.skip isDigit)
  · exact .ok (ab.skip isDigit)

/-- Both read an integer alike. -/
lemma readInteger_alike (ab : tw.Abreast cur cur') :
    tw.Alike cur.readInteger cur'.readInteger := by
  rw [Cursor.readInteger, Cursor.readInteger, ab.peek?_eq]
  by_cases minus : cur.peek? = some '-'
  · have behind := ab.next minus
    rw [if_pos minus, if_pos minus]
    dsimp only
    rw [behind.peek?_eq]
    split
    · exact readDigits_alike behind ab.same true
    · exact behind.fails _
  · rw [if_neg minus, if_neg minus]
    exact readDigits_alike ab ab.same false

end Twins
end TermHeap
