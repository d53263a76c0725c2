import Mathlib
import TermHeap.Proofs.Term.OneStack
import TermHeap.Proofs.Text.Abreast

/-!
# Where a text stops being the beginning of a term

The reader looks one character ahead. So a message that tells what was expected is about the first
character with which no term goes on: what was passed until then stands for open terms that can all
be closed (`Stands.completes`), and with that character the reader fails whatever comes behind it
(`parse_of_stuck`), although it would read every text of a term or refuse it for the number of
arguments of a record. `Path` is what the reader passes between two states, `Balks` and `Stuck` are
how it fails.
-/

namespace TermHeap
open Grammar

/-- What a message names as found in place of what was expected: a character or the end of the
text. -/
def ParseCause.found? : ParseCause → Option (Option Char)
  | .expected _ found => some found
  | .expectedDigit found => some found
  | .integerOutOfRange | .tooManyArguments _ _ | .headNotRecord _ => none

/-- Where a run of characters stops depends on the next one only. -/
lemma Stops.congr {p : Char → Bool} {r r' : List Char} (stop : Stops p r)
    (e : r'.head? = r.head?) : Stops p r' := by
  intro c hc
  exact stop c (e ▸ hc)

/-- The same text before alike rests makes them alike. -/
lemma head?_append_congr {r r' : List Char} (s : List Char) (e : r'.head? = r.head?) :
    (s ++ r').head? = (s ++ r).head? := by
  rw [List.head?_append, List.head?_append, e]

namespace Cursor

variable {cur after : Cursor} {e : ParseError} {f : Option Char} {r : List Char} {pos : Position}

/-- A run of characters stops at the cursor if the next one is none of them. -/
lemma stops_peek? {p : Char → Bool} (stop : ∀ c, cur.peek? = some c → p c = false) :
    Stops p cur.rest := fun c hc => stop c hc

/-- A minus sign is refused for what follows it if that is no digit. -/
lemma readInteger_error (hr : cur.readInteger = (.error e, after))
    (hf : e.cause.found? = some f) :
    cur.Passes ['-'] after ∧ Stops isDigit after.rest ∧ e.pos = after.pos ∧ f = after.peek? := by
  have digits : ∀ {cur : Cursor} {start negative},
      cur.readDigits start negative ≠ (.error e, after) := by
    intro cur start negative hr
    simp only [readDigits] at hr
    split at hr
    · cases hr
      cases hf
    · cases hr
  rw [readInteger] at hr
  split at hr
  · rename_i minus
    dsimp only at hr
    split at hr
    · exact absurd hr digits
    · rename_i noDigit
      cases hr
      cases hf
      refine ⟨passes_next minus, stops_peek? ?_, rfl, rfl⟩
      intro c hc
      simpa [hc] using noDigit
  · exact absurd hr digits

/-- A sign without a digit is refused for what comes instead. -/
lemma readInteger_of_sign (stop : Stops isDigit r) :
    (Cursor.mk ('-' :: r) pos).readInteger =
      (.error ⟨.expectedDigit r.head?, pos.advanceAll ['-']⟩, ⟨r, pos.advanceAll ['-']⟩) := by
  rw [readInteger, peek?_mk, if_pos rfl, next_mk]
  have noDigit : (Cursor.mk r (pos.advanceAll ['-'])).peek?.any isDigit = false := by
    cases r with
    | nil => rfl
    | cons c r => exact stop c rfl
  simp only [noDigit, Bool.false_eq_true, if_false]
  rfl

/-- The end is refused for the first character that is left behind white space. -/
lemma readEnd_eq_error (he : (cur.readEnd).1 = .error e) :
    ∃ w c r, cur.Passes w ⟨c :: r, cur.pos.advanceAll w⟩ ∧ Blanks w ∧ isBlank c = false ∧
      e = ⟨.expected (.one .end) (some c), cur.pos.advanceAll w⟩ := by
  obtain ⟨w, bl, stop, ps⟩ := cur.exists_skipBlanks
  rw [readEnd, atEnd] at he
  cases hr : cur.skipBlanks.rest with
  | nil =>
    rw [hr] at he
    cases he
  | cons c r =>
    rw [hr] at he
    cases he
    rw [hr] at stop
    refine ⟨w, c, r, ⟨hr ▸ ps.1, rfl⟩, bl, stop c rfl, ?_⟩
    rw [peek?, hr, ps.2]
    rfl

end Cursor

namespace Term
open OneStack (startsTerm)

/-- Whether an open term goes on with the character. -/
def Frame.goesOn : Frame → Char → Bool
  | .paren, c => c = ')'
  | .list _, c => c = ',' || c = ']'
  | .record _ _ _, c => c = ',' || c = ')'

/-- Behind a text that is passed in a state, the rest goes on in a way in which no term does. -/
inductive Balks : ReadState → List Char → List Char → Prop where
  | due {fs w r} : Blanks w → Stops isBlank r → Stops startsTerm r → Balks (.due fs) w r
  | sign {fs w r} : Blanks w → Stops isDigit r → Balks (.due fs) (w ++ ['-']) r
  | inside {t frame fs w r} : Blanks w → Stops isBlank r → Stops (Frame.goesOn frame) r →
      Balks (.ended t (frame :: fs)) w r

/-- What the reader passes from one place and state to another state, with the rest of the text
behind it. -/
inductive Path : Position → ReadState → List Char → List Char → ReadState → Prop where
  | refl {pos st r} : Path pos st [] r st
  | step {pos st w s s' r st' st''} : Blanks w → Move (pos.advanceAll w) st s (s' ++ r) st' →
      Path (pos.advanceAll (w ++ s)) st' s' r st'' → Path pos st (w ++ s ++ s') r st''

variable {pos : Position} {st st' : ReadState} {fs : List Frame} {frame : Frame} {c : Char}
  {w s r r' x : List Char} {cur mid after : Cursor} {t : Term} {e : ParseError} {f : Option Char}

/-! ### One character ahead -/

/-- A step looks one character ahead and no further. -/
lemma Move.congr (mv : Move pos st s r st') (e : r'.head? = r.head?) : Move pos st s r' st' := by
  cases mv with
  | openParen => exact .openParen
  | emptyList bl => exact .emptyList bl
  | openList bl stop ne => exact .openList bl (stop.congr e) (e ▸ ne)
  | int lit stop => exact .int lit (stop.congr e)
  | name nm bl si sb ne =>
    exact .name nm bl (si.congr (head?_append_congr _ e)) (sb.congr e) (e ▸ ne)
  | openRecord id bl => exact .openRecord id bl
  | closeParen => exact .closeParen
  | nextElement => exact .nextElement
  | closeList => exact .closeList
  | nextArgument => exact .nextArgument
  | closeRecord le => exact .closeRecord le

/-- The steps of a path look one character ahead and no further. -/
lemma Path.congr (pt : Path pos st s r st') (e : r'.head? = r.head?) : Path pos st s r' st' := by
  induction pt with
  | refl => exact .refl
  | step bl mv _ ih => exact .step bl (mv.congr (head?_append_congr _ e)) (ih e)

/-- The reader balks at the next character, whatever comes behind it. -/
lemma Balks.congr (bk : Balks st w r) (e : r'.head? = r.head?) : Balks st w r' := by
  cases bk with
  | due bl stop no => exact .due bl (stop.congr e) (no.congr e)
  | sign bl no => exact .sign bl (no.congr e)
  | inside bl stop no => exact .inside bl (stop.congr e) (no.congr e)

/-- A run goes along its path. -/
lemma Path.run (pt : Path pos st s r st') :
    readFrom st ⟨s ++ r, pos⟩ = readFrom st' ⟨r, pos.advanceAll s⟩ := by
  induction pt with
  | refl => rfl
  | @step pos st w s s' r st' st'' bl mv _ ih =>
    have step := mv.step bl
    rw [← List.append_assoc] at step
    rw [readFrom_eq, step]
    exact ih.trans (by rw [← Position.advanceAll_append])

/-- A run goes along a path to its last step. -/
lemma exists_path (st : ReadState) (cur : Cursor) :
    ∃ s st' mid, cur.Passes s mid ∧ Path cur.pos st s mid.rest st' ∧
      readStep st' mid = (.done (readFrom st cur).1, (readFrom st cur).2) := by
  fun_induction readFrom st cur with
  | case1 st cur result after hs => exact ⟨[], st, cur, ⟨rfl, rfl⟩, .refl, hs⟩
  | case2 st cur st₁ next hs ih =>
    obtain ⟨w, s, bl, ps, mv⟩ := exists_move hs
    obtain ⟨s', st', mid, ps', pt, stop⟩ := ih
    rw [ps'.1] at mv
    rw [ps.2] at pt
    exact ⟨w ++ s ++ s', st', mid, ps.trans ps', .step bl mv pt, stop⟩

/-! ### How the reader balks -/

/-- Where a term should begin, the reader balks at the first character with which none does. -/
lemma exists_balks_begin (bl : Blanks w) (ps : cur.Passes w mid)
    (stop : Stops isBlank mid.rest) (hc : mid.peek? = some c)
    (h : begin fs c mid = (.done (.error e), after)) (hf : e.cause.found? = some f) :
    ∃ w, cur.Passes w after ∧ Balks (.due fs) w after.rest ∧ e.pos = after.pos ∧
      f = after.peek? := by
  cases starts : startsTerm c with
  | false =>
    rw [OneStack.begin_of_not_starts starts] at h
    cases h
    cases hf
    refine ⟨w, ps, .due bl stop (Cursor.stops_peek? ?_), rfl, hc.symm⟩
    intro d hd
    obtain rfl := Option.some.inj (hc.symm.trans hd)
    exact starts
  | true =>
    rw [begin] at h
    split at h
    · cases h
    split at h
    · dsimp only at h
      split at h <;> cases h
    split at h
    · split at h
      · cases h
      · rename_i hr
        cases h
        obtain ⟨ps', no, hp, hf⟩ := Cursor.readInteger_error hr hf
        exact ⟨w ++ ['-'], ps.trans ps', .sign bl no, hp, hf⟩
    split at h
    · dsimp only at h
      split at h <;> cases h
    · rename_i noParen noBracket noInteger noName
      simp_all [startsTerm]

/-- A step that tells what was expected fails at the first character with which no term goes on. -/
lemma exists_balks (h : readStep st cur = (.done (.error e), after))
    (hf : e.cause.found? = some f) :
    ∃ w, cur.Passes w after ∧ Balks st w after.rest ∧ e.pos = after.pos ∧ f = after.peek? := by
  obtain ⟨w, bl, stop, ps⟩ := cur.exists_skipBlanks
  cases st with
  | due fs =>
    rw [readStep] at h
    split at h
    · rename_i hc
      cases h
      cases hf
      refine ⟨w, ps, .due bl stop (Cursor.stops_peek? ?_), rfl, hc.symm⟩
      simp [hc]
    · rename_i c hc
      exact exists_balks_begin bl ps stop hc h hf
  | ended t frames =>
    cases frames with
    | nil => cases h
    | cons frame fs =>
      rw [readStep] at h
      split at h
      · rename_i hc
        cases h
        cases hf
        refine ⟨w, ps, .inside bl stop (Cursor.stops_peek? ?_), rfl, hc.symm⟩
        simp [hc]
      · rename_i c hc
        have inside : frame.goesOn c = false → cur.skipBlanks = after → e.pos = after.pos →
            f = after.peek? → ∃ w, cur.Passes w after ∧
              Balks (.ended t (frame :: fs)) w after.rest ∧ e.pos = after.pos ∧
              f = after.peek? := by
          rintro no rfl hp hf
          refine ⟨w, ps, .inside bl stop (Cursor.stops_peek? ?_), hp, hf⟩
          intro d hd
          obtain rfl := Option.some.inj (hc.symm.trans hd)
          exact no
        cases frame with
        | paren =>
          rw [resume_paren] at h
          split at h
          · cases h
          · rename_i other
            cases h
            cases hf
            exact inside (by simpa [Frame.goesOn] using other) rfl rfl hc.symm
        | list es =>
          rw [resume_list] at h
          split at h
          · cases h
          split at h
          · cases h
          · rename_i other other'
            cases h
            cases hf
            exact inside (by simp [Frame.goesOn, other, other']) rfl rfl hc.symm
        | record start name es =>
          rw [resume_record] at h
          split at h
          · cases h
          split at h
          · rw [closeRecord] at h
            split at h
            · cases h
            · cases h
              cases hf
          · rename_i other other'
            cases h
            cases hf
            exact inside (by simp [Frame.goesOn, other, other']) rfl rfl hc.symm

/-- Where the reader balks it fails at once. -/
lemma Balks.fails (bk : Balks st w r) :
    ∃ e after, readStep st ⟨w ++ r, pos⟩ = (.done (.error e), after) ∧ e.cause.found? ≠ none := by
  cases bk with
  | due bl stop no =>
    rw [readStep, Cursor.skipBlanks_append bl stop]
    cases r with
    | nil => exact ⟨_, _, rfl, Option.some_ne_none _⟩
    | cons c r =>
      simp only [Cursor.peek?_mk]
      rw [OneStack.begin_of_not_starts (no c rfl)]
      exact ⟨_, _, rfl, Option.some_ne_none _⟩
  | @sign fs w r bl no =>
    rw [List.append_assoc, List.singleton_append, readStep_due bl (stops_cons rfl),
      begin_int (.inl rfl), Cursor.readInteger_of_sign no]
    exact ⟨_, _, rfl, Option.some_ne_none _⟩
  | @inside t frame fs w r bl stop no =>
    cases r with
    | nil =>
      rw [readStep, Cursor.skipBlanks_append bl stop]
      exact ⟨_, _, rfl, Option.some_ne_none _⟩
    | cons c r =>
      have no := no c rfl
      rw [readStep_ended bl stop]
      cases frame with
      | paren =>
        simp only [Frame.goesOn, decide_eq_false_iff_not] at no
        rw [resume_paren, if_neg no]
        exact ⟨_, _, rfl, Option.some_ne_none _⟩
      | list es =>
        simp only [Frame.goesOn, Bool.or_eq_false_iff, decide_eq_false_iff_not] at no
        rw [resume_list, if_neg no.1, if_neg no.2]
        exact ⟨_, _, rfl, Option.some_ne_none _⟩
      | record start name es =>
        simp only [Frame.goesOn, Bool.or_eq_false_iff, decide_eq_false_iff_not] at no
        rw [resume_record, if_neg no.1, if_neg no.2]
        exact ⟨_, _, rfl, Option.some_ne_none _⟩

/-! ### What was passed can be completed -/

/-- Behind the text a part of a row may follow. -/
def Collected (x : List Char) : Prop :=
  ∀ y t, Spells (fun _ => True) y t → ∃ ts, Row (Spells fun _ => True) (x ++ y) ts

/-- The text has opened terms and stands before a part of the innermost one. -/
def Awaits : List Frame → List Char → Prop
  | [], s => Blanks s
  | .paren :: fs, s => ∃ s₀ w, s = s₀ ++ '(' :: w ∧ Awaits fs s₀ ∧ Blanks w
  | .list _ :: fs, s => ∃ s₀ x, s = s₀ ++ '[' :: x ∧ Awaits fs s₀ ∧ Collected x
  | .record _ _ _ :: fs, s => ∃ s₀ f w x, s = s₀ ++ (f ++ w ++ '(' :: x) ∧ Awaits fs s₀ ∧
      Identifier f ∧ Blanks w ∧ Collected x

/-- The text has come to a state of the reader. -/
def Stands : ReadState → List Char → Prop
  | .due fs, s => Awaits fs s
  | .ended _ fs, s => ∃ s₀ x t, s = s₀ ++ x ∧ Awaits fs s₀ ∧ Spells (fun _ => True) x t

/-- White space may follow a part of a row. -/
lemma Collected.blanks (cl : Collected x) (bl : Blanks w) : Collected (x ++ w) := by
  intro y t sp
  rw [List.append_assoc]
  exact cl _ t (sp.blanks_before bl)

/-- A part may come first, white space before it aside. -/
lemma collected_blanks (bl : Blanks w) : Collected w :=
  fun _ t sp => ⟨[t], .one (sp.blanks_before bl)⟩

/-- Behind a part of a row and a comma another part may follow. -/
lemma Collected.comma (cl : Collected x) (sp : Spells (fun _ => True) s t) :
    Collected (x ++ s ++ [',']) := by
  intro y u sp'
  obtain ⟨ts, row⟩ := cl s t sp
  refine ⟨ts ++ [u], ?_⟩
  rw [List.append_assoc, List.singleton_append]
  exact row.snoc sp'

/-- White space may come before a part. -/
lemma Awaits.blanks (aw : Awaits fs s) (bl : Blanks w) : Awaits fs (s ++ w) := by
  cases fs with
  | nil => exact Blanks.append aw bl
  | cons frame fs =>
    cases frame with
    | paren =>
      obtain ⟨s₀, w', rfl, aw, bl'⟩ := aw
      exact ⟨s₀, w' ++ w, by simp, aw, bl'.append bl⟩
    | list es =>
      obtain ⟨s₀, x, rfl, aw, cl⟩ := aw
      exact ⟨s₀, x ++ w, by simp, aw, cl.blanks bl⟩
    | record start name es =>
      obtain ⟨s₀, f, w', x, rfl, aw, id, bl', cl⟩ := aw
      exact ⟨s₀, f, w', x ++ w, by simp, aw, id, bl', cl.blanks bl⟩

/-- White space does not change the state that a text has come to. -/
lemma Stands.blanks (sd : Stands st s) (bl : Blanks w) : Stands st (s ++ w) := by
  cases st with
  | due fs => exact Awaits.blanks sd bl
  | ended t fs =>
    obtain ⟨s₀, x, u, rfl, aw, sp⟩ := sd
    exact ⟨s₀, x ++ w, u, by simp, aw, sp.blanks_after bl⟩

/-- A step passes a text that brings the reader to its next state. -/
lemma Move.stands (mv : Move pos st x r st') (sd : Stands st s) : Stands st' (s ++ x) := by
  cases mv with
  | openParen => exact ⟨s, [], rfl, sd, .nil⟩
  | emptyList bl => exact ⟨s, _, _, rfl, sd, .nil bl⟩
  | openList bl _ _ => exact ⟨s, _, rfl, sd, collected_blanks bl⟩
  | int lit _ => exact ⟨s, _, _, rfl, sd, .int lit⟩
  | name nm bl _ _ _ => exact ⟨s, _, _, rfl, sd, Spells.blanks_after (.name nm) bl⟩
  | openRecord id bl => exact ⟨s, _, _, [], rfl, sd, id, bl, collected_blanks .nil⟩
  | closeParen =>
    obtain ⟨_, x, u, rfl, ⟨s₀, w, rfl, aw, bl⟩, sp⟩ := sd
    refine ⟨s₀, '(' :: (w ++ x) ++ [')'], u, by simp, aw, ?_⟩
    exact .paren (sp.blanks_before bl)
  | nextElement =>
    obtain ⟨_, x, u, rfl, ⟨s₀, y, rfl, aw, cl⟩, sp⟩ := sd
    exact ⟨s₀, y ++ x ++ [','], by simp, aw, cl.comma sp⟩
  | closeList =>
    obtain ⟨_, x, u, rfl, ⟨s₀, y, rfl, aw, cl⟩, sp⟩ := sd
    obtain ⟨ts, row⟩ := cl x u sp
    exact ⟨s₀, '[' :: (y ++ x) ++ [']'], _, by simp, aw, .list row⟩
  | nextArgument =>
    obtain ⟨_, x, u, rfl, ⟨s₀, f, w, y, rfl, aw, id, bl, cl⟩, sp⟩ := sd
    exact ⟨s₀, f, w, y ++ x ++ [','], by simp, aw, id, bl, cl.comma sp⟩
  | closeRecord _ =>
    obtain ⟨_, x, u, rfl, ⟨s₀, f, w, y, rfl, aw, id, bl, cl⟩, sp⟩ := sd
    obtain ⟨ts, row⟩ := cl x u sp
    exact ⟨s₀, f ++ w ++ '(' :: (y ++ x) ++ [')'], _, by simp, aw, .record id bl row trivial⟩

/-- A path brings the reader to the state at its end. -/
lemma Path.stands (pt : Path pos st x r st') (sd : Stands st s) : Stands st' (s ++ x) := by
  induction pt generalizing s with
  | refl => rwa [List.append_nil]
  | step bl mv _ ih =>
    rw [← List.append_assoc, ← List.append_assoc]
    exact ih (mv.stands (sd.blanks bl))

/-- Open terms can be closed behind a text of a term. -/
lemma Awaits.completes (aw : Awaits fs s) (sp : Spells (fun _ => True) x t) :
    ∃ y u, Spells (fun _ => True) (s ++ x ++ y) u := by
  induction fs generalizing s x t with
  | nil => exact ⟨[], t, .padded aw sp .nil⟩
  | cons frame fs ih =>
    cases frame with
    | paren =>
      obtain ⟨s₀, w, rfl, aw, bl⟩ := aw
      obtain ⟨y, u, sp⟩ := ih aw (.paren (sp.blanks_before bl))
      exact ⟨')' :: y, u, by simpa using sp⟩
    | list es =>
      obtain ⟨s₀, x', rfl, aw, cl⟩ := aw
      obtain ⟨ts, row⟩ := cl x t sp
      obtain ⟨y, u, sp⟩ := ih aw (.list row)
      exact ⟨']' :: y, u, by simpa using sp⟩
    | record start name es =>
      obtain ⟨s₀, f, w, x', rfl, aw, id, bl, cl⟩ := aw
      obtain ⟨ts, row⟩ := cl x t sp
      obtain ⟨y, u, sp⟩ := ih aw (.record id bl row trivial)
      exact ⟨')' :: y, u, by simpa using sp⟩

/-- The digit zero is an integer. -/
lemma literal_zero : Literal ['0'] (Int32.toInt 0) := .natural ⟨by simp, by simp⟩

/-- The digit zero behind a sign is an integer. -/
lemma literal_minusZero : Literal ['-', '0'] (Int32.toInt 0) := .negative ⟨by simp, by simp⟩

/-- A text that the reader has passed is the beginning of a text of a term. -/
lemma Stands.completes (sd : Stands st s) : ∃ y u, Spells (fun _ => True) (s ++ y) u := by
  cases st with
  | due fs =>
    obtain ⟨y, u, sp⟩ := Awaits.completes sd (.int literal_zero)
    exact ⟨'0' :: y, u, by simpa using sp⟩
  | ended t fs =>
    obtain ⟨s₀, x, u, rfl, aw, sp⟩ := sd
    exact aw.completes sp

/-- What was passed before the reader balks is the beginning of a text of a term. -/
lemma Balks.completes (bk : Balks st w r) (sd : Stands st s) :
    ∃ y u, Spells (fun _ => True) (s ++ w ++ y) u := by
  cases bk with
  | due bl _ _ => exact (sd.blanks bl).completes
  | inside bl _ _ => exact (sd.blanks bl).completes
  | sign bl _ =>
    -- the sign is part of an integer that is still to come
    obtain ⟨y, u, sp⟩ := Awaits.completes (sd.blanks bl) (.int literal_minusZero)
    exact ⟨'0' :: y, u, by simpa using sp⟩

/-! ### Whole texts -/

/-- Where reading a whole text fails for what comes next: the reader balks, or the term has ended
and more than white space is left. -/
inductive Stuck : ReadState → List Char → List Char → Prop where
  | balks {st : ReadState} {w r : List Char} : Balks st w r → Stuck st w r
  | trailing {t : Term} {w r : List Char} {c : Char} : Blanks w → isBlank c = false →
      Stuck (.ended t []) w (c :: r)

/-- A text is stuck at its next character, whatever comes behind it. -/
lemma Stuck.congr {d : Char} (sk : Stuck st w (c :: r)) (e : d = c) : Stuck st w (d :: r') := by
  subst e
  cases sk with
  | balks bk => exact .balks (bk.congr rfl)
  | trailing bl nb => exact .trailing bl nb

/-- What was passed before a text is stuck is the beginning of a text of a term. -/
lemma Stuck.completes (sk : Stuck st w r) (sd : Stands st s) :
    ∃ y u, Spells (fun _ => True) (s ++ w ++ y) u := by
  cases sk with
  | balks bk => exact bk.completes sd
  | trailing bl _ => exact (sd.blanks bl).completes

/-- A message that tells what was expected is about the place where the text is stuck. -/
lemma exists_stuck {text : String} (hp : parse text = .error e) (hf : e.cause.found? = some f) :
    ∃ s w r st, text.toList = s ++ w ++ r ∧ Path .start (.due []) s (w ++ r) st ∧ Stuck st w r ∧
      e.pos = .behind (s ++ w) ∧ f = r.head? := by
  obtain ⟨s, st, mid, ps, pt, stop⟩ := exists_path (.due []) (.ofString text)
  have here : ∀ {w after}, mid.Passes w after →
      text.toList = s ++ w ++ after.rest ∧ after.pos = .behind (s ++ w) := by
    intro w after ps'
    have both := ps.trans ps'
    exact ⟨both.1, both.2.trans (Position.advanceAll_start _)⟩
  rw [parse, Cursor.readWhole, read] at hp
  split at hp
  · rename_i hr
    cases hp
    rw [hr] at stop
    obtain ⟨w, ps', bk, hp, rfl⟩ := exists_balks stop hf
    obtain ⟨whole, place⟩ := here ps'
    exact ⟨s, w, _, st, whole, ps'.1 ▸ pt, .balks bk, hp.trans place, rfl⟩
  · rename_i t after hr
    rw [hr] at stop
    obtain ⟨rfl, rfl⟩ := readStep_eq_done_ok stop
    split at hp
    · rename_i he
      cases hp
      obtain ⟨w, c, r, ps', bl, nb, rfl⟩ := Cursor.readEnd_eq_error he
      obtain ⟨whole, place⟩ := here ps'
      cases hf
      exact ⟨s, w, c :: r, _, whole, ps'.1 ▸ pt, .trailing bl nb, place, rfl⟩
    · cases hp

/-- A text that is stuck somewhere is refused for what comes there. -/
lemma parse_of_stuck {text : String} (whole : text.toList = s ++ w ++ r)
    (pt : Path .start (.due []) s (w ++ r) st) (sk : Stuck st w r) :
    ∃ e, parse text = .error e ∧ e.cause.found? ≠ none := by
  have run := pt.run
  rw [← List.append_assoc, ← whole] at run
  rw [parse, Cursor.readWhole, read, Cursor.ofString, run, readFrom_eq]
  cases sk with
  | balks bk =>
    obtain ⟨e, after, hs, hf⟩ := bk.fails
    rw [hs]
    exact ⟨e, rfl, hf⟩
  | @trailing t w r c bl nb =>
    have more : (Cursor.mk (w ++ c :: r) (Position.start.advanceAll s)).readEnd.1 =
        .error ⟨.expected (.one .end) (some c), (Position.start.advanceAll s).advanceAll w⟩ := by
      rw [Cursor.readEnd, Cursor.atEnd, Cursor.skipBlanks_append bl (stops_cons nb)]
      rfl
    simp only [readStep, more]
    exact ⟨_, rfl, Option.some_ne_none _⟩

/-- A text of a term is read, or it is refused for the number of arguments of a record. -/
lemma parse_of_spells {text : String} (sp : Spells (fun _ => True) text.toList t) :
    parse text = .ok t ∨ ∃ e, parse text = .error e ∧ e.cause.found? = none := by
  obtain ⟨mid, ps, left⟩ := Cursor.passes_ofString (List.append_nil text.toList).symm
  have accepts := accepts_of_spells (Q := fun p => ∃ n name start after,
    p = (.error ⟨.tooManyArguments n name, start⟩, after)) sp fun n _ =>
      .inr fun name start after => ⟨n, name, start, after, rfl⟩
  obtain ⟨after, e, h⟩ := accepts.2 [] _ mid ps (left ▸ .of_blanks .nil)
  rcases h with h | ⟨n, name, start, after, h⟩
  · left
    rw [parse, Cursor.readWhole_eq_ok]
    refine ⟨after, ?_, ?_⟩
    · rw [read, h, readFrom_eq]
      rfl
    · have none : mid.atEnd.1 = true := Cursor.atEnd_iff.mpr (left ▸ .nil)
      rwa [Cursor.atEnd, ← e, ← Cursor.atEnd, Cursor.atEnd_iff] at none
  · right
    refine ⟨⟨.tooManyArguments n name, start⟩, ?_, rfl⟩
    rw [parse, Cursor.readWhole, read, h]

end Term

/-! ### Messages -/

variable {cause : ParseCause} {f : Option Char}

/-- Only messages that name what was found begin with "Expecting". -/
lemma ParseCause.exists_found? (ex : "Expecting ".toList <+: cause.message.toList) :
    ∃ f, cause.found? = some f := by
  have first : cause.message.toList.head? = some 'E' := by
    obtain ⟨r, hr⟩ := ex
    rw [← hr]
    rfl
  cases cause with
  | expected tokens found => exact ⟨found, rfl⟩
  | expectedDigit found => exact ⟨found, rfl⟩
  | integerOutOfRange =>
    change "Integer out of range".toList.head? = _ at first
    simp at first
  | tooManyArguments n name =>
    change ("Too many arguments (" ++ _ ++ _ ++ _ ++ _ ++ _ ++ _).toList.head? = _ at first
    simp at first
  | headNotRecord head =>
    change ("Clause head must be a record but got '" ++ _ ++ _).toList.head? = _ at first
    simp at first

/-- Messages end with "EOF" where the end of the text was found. -/
lemma ParseCause.eof_iff (hf : cause.found? = some f) :
    " but got EOF".toList <:+ cause.message.toList ↔ f = none := by
  have ends : ∃ text, cause.message = text ++ foundText f := by
    cases cause with
    | expected tokens found =>
      cases hf
      exact ⟨_, rfl⟩
    | expectedDigit found =>
      cases hf
      exact ⟨_, rfl⟩
    | _ => cases hf
  obtain ⟨text, eq⟩ := ends
  rw [eq, String.toList_append]
  cases f with
  | none =>
    refine ⟨fun _ => rfl, fun _ => ?_⟩
    exact List.suffix_append _ _
  | some c =>
    refine ⟨?_, nofun⟩
    rintro ⟨r, hr⟩
    -- the message ends with a quotation mark
    have last := congrArg List.getLast? hr
    simp [foundText] at last

/-! ### The place of a message -/

namespace Term

/-- With the character at which a text is stuck no text of a term goes on. -/
lemma Stuck.no_spells {s w r x : List Char} {c : Char} {st : ReadState} {t : Term}
    (pt : Path .start (.due []) s (w ++ c :: r) st) (sk : Stuck st w (c :: r)) :
    ¬ Spells (fun _ => True) (s ++ w ++ c :: x) t := by
  intro sp
  have whole : (String.ofList (s ++ w ++ c :: x)).toList = s ++ w ++ c :: x :=
    String.toList_ofList
  have pt' : Path .start (.due []) s (w ++ c :: x) st := pt.congr (head?_append_congr w rfl)
  obtain ⟨e, hp, hf⟩ := parse_of_stuck whole pt' (sk.congr rfl)
  rcases parse_of_spells (whole ▸ sp) with ok | ⟨e', hp', hf'⟩
  · rw [hp] at ok
    cases ok
  · obtain rfl := Except.error.inj (hp.symm.trans hp')
    exact hf hf'

/-- An error that tells what was expected is about the first character with which no text of a term
goes on, where a record may have any number of arguments: all before it is the beginning of a text
of a term, and with it it is not. It is found at the end of the text just if it tells that, and its
line and column are those of its offset. -/
theorem parse_expecting {text : String} {e : ParseError} (hp : parse text = .error e)
    (ex : "Expecting ".toList <+: e.message.toList) :
    e.pos = .behind (text.toList.take e.pos.offset) ∧
    e.pos.offset ≤ text.length ∧
    (∃ r t, Spells (fun _ => True) (text.toList.take e.pos.offset ++ r) t) ∧
    (e.pos.offset < text.length →
      ∀ r t, ¬ Spells (fun _ => True) (text.toList.take (e.pos.offset + 1) ++ r) t) ∧
    (e.pos.offset = text.length ↔ " but got EOF".toList <:+ e.message.toList) := by
  obtain ⟨f, hf⟩ := ParseCause.exists_found? ex
  obtain ⟨s, w, r, st, whole, pt, sk, place, rfl⟩ := exists_stuck hp hf
  have offset : e.pos.offset = (s ++ w).length := by
    rw [place]
    rfl
  have before : text.toList.take e.pos.offset = s ++ w := by
    rw [offset, whole, List.take_left]
  have length : text.length = e.pos.offset + r.length := by
    rw [← String.length_toList, whole, List.length_append, offset]
  refine ⟨before ▸ place, by omega, ?_, ?_, ?_⟩
  · rw [before]
    exact sk.completes (s := s) (pt.stands (s := []) (show Awaits [] [] from .nil))
  · intro inside x t
    cases r with
    | nil => simp [length] at inside
    | cons c r =>
      have until_c : text.toList.take (e.pos.offset + 1) = s ++ w ++ [c] := by
        rw [whole, offset, List.take_length_add_append]
        rfl
      rw [until_c, List.append_assoc, List.singleton_append]
      exact sk.no_spells pt
  · rw [ParseError.message, ParseCause.eof_iff hf, List.head?_eq_none_iff,
      ← List.length_eq_zero_iff]
    omega

/-- The brace is where the text is stuck, as the list could be closed before it. -/
theorem parse_expecting_unclosedList :
    parse "f(1,\n[a\x7d" =
      .error ⟨.expected (.ofList [.comma, .rightBracket]) (some '\x7d'), ⟨2, 3, 7⟩⟩ ∧
    (∃ r t, Spells (fun _ => True) ("f(1,\n[a".toList ++ r) t) ∧
    ∀ r t, ¬ Spells (fun _ => True) ("f(1,\n[a\x7d".toList ++ r) t := by
  have stuck : parse "f(1,\n[a\x7d" =
      .error ⟨.expected (.ofList [.comma, .rightBracket]) (some '\x7d'), ⟨2, 3, 7⟩⟩ := by cbv
  have expecting : ∀ x y : String, "Expecting ".toList <+: ("Expecting " ++ x ++ y).toList := by
    simp [String.toList_append]
  obtain ⟨-, -, before, none, -⟩ := parse_expecting stuck (expecting _ _)
  exact ⟨stuck, before, none (by decide)⟩

end Term
end TermHeap
