import TermHeap.Term.Parser
import TermHeap.Proofs.Text.Lexeme

/-!
# What a step of the reader can do

`Move pos state s r state'` lists the steps that the reader of terms can take: at the place `pos` it
passes the text `s`, behind which `r` is left, and goes from one state to another. Behind white
space it takes exactly these steps (`Move.step`, `exists_move`), so what is said of texts and steps
from here on needs no branch of the reader.
-/

namespace TermHeap.Term
open Grammar

/-- The steps of the reader. -/
inductive Move (pos : Position) : ReadState → List Char → List Char → ReadState → Prop where
  | openParen {fs r} : Move pos (.due fs) ['('] r (.due (.paren :: fs))
  | emptyList {fs w r} : Blanks w → Move pos (.due fs) ('[' :: w ++ [']']) r (.ended .nil fs)
  | openList {fs w r} : Blanks w → Stops isBlank r → r.head? ≠ some ']' →
      Move pos (.due fs) ('[' :: w) r (.due (.list [] :: fs))
  | int {fs s r} {v : Int32} : Literal s v.toInt → Stops isDigit r →
      Move pos (.due fs) s r (.ended (.int v) fs)
  | name {fs s w r t} : Name s t → Blanks w → Stops isIdentChar (w ++ r) → Stops isBlank r →
      r.head? ≠ some '(' → Move pos (.due fs) (s ++ w) r (.ended t fs)
  | openRecord {fs f w r} : Identifier f → Blanks w →
      Move pos (.due fs) (f ++ w ++ ['(']) r (.due (.record pos (String.ofList f) [] :: fs))
  | closeParen {fs t r} : Move pos (.ended t (.paren :: fs)) [')'] r (.ended t fs)
  | nextElement {fs t es r} :
      Move pos (.ended t (.list es :: fs)) [','] r (.due (.list (t :: es) :: fs))
  | closeList {fs t es r} : Move pos (.ended t (.list es :: fs)) [']'] r
      (.ended (Term.list (t :: es).reverse .nil) fs)
  | nextArgument {fs t start f es r} : Move pos (.ended t (.record start f es :: fs)) [','] r
      (.due (.record start f (t :: es) :: fs))
  | closeRecord {fs t start f es r} : (t :: es).length ≤ maxArity →
      Move pos (.ended t (.record start f es :: fs)) [')'] r
        (.ended (.record f (t :: es).reverse) fs)

variable {pos : Position} {st st' : ReadState} {fs : List Frame} {c : Char} {w s r : List Char}
  {cur after : Cursor} {t : Term} {frame : Frame}

/-! ### The characters with which terms begin -/

/-- No character of a name comes before the digits. -/
lemma toNat_of_isIdentChar (hc : isIdentChar c = true) : 48 ≤ c.toNat := by
  simp only [isIdentChar, isIdentStart, isLower, isUpper, isDigit, Char.le_def,
    UInt32.le_iff_toNat_le, Bool.or_eq_true, Bool.and_eq_true, decide_eq_true_eq] at hc
  rcases hc with ((⟨h, _⟩ | ⟨h, _⟩) | rfl) | ⟨h, _⟩
  · exact Nat.le_trans (by decide) h
  · exact Nat.le_trans (by decide) h
  · decide
  · exact h

/-- No digit begins a name. -/
lemma isDigit_of_isIdentStart (hc : isIdentStart c = true) : isDigit c = false := by
  cases hd : isDigit c with
  | false => rfl
  | true =>
    simp only [isIdentStart, isLower, isUpper, isDigit, Char.le_def, UInt32.le_iff_toNat_le,
      Bool.or_eq_true, Bool.and_eq_true, decide_eq_true_eq] at hc hd
    have nine : c.val.toNat ≤ 57 := hd.2
    rcases hc with (⟨h, _⟩ | ⟨h, _⟩) | rfl
    · exact absurd (Nat.le_trans h nine) (by decide)
    · exact absurd (Nat.le_trans h nine) (by decide)
    · exact absurd nine (by decide)

/-- No letter is both small and capital. -/
lemma isUpper_of_isLower (hc : isLower c = true) : isUpper c = false := by
  cases hu : isUpper c with
  | false => rfl
  | true =>
    simp only [isLower, isUpper, Char.le_def, UInt32.le_iff_toNat_le, Bool.and_eq_true,
      decide_eq_true_eq] at hc hu
    exact absurd (Nat.le_trans hc.1 hu.2) (by decide)

/-- No character of a name is white space. -/
lemma isBlank_of_isIdentChar (hc : isIdentChar c = true) : isBlank c = false := by
  have := toNat_of_isIdentChar hc
  simp only [isBlank, Bool.or_eq_false_iff, Bool.and_eq_false_iff, decide_eq_false_iff_not]
  omega

/-- Digits may stand in names. -/
lemma isIdentChar_of_isDigit (hc : isDigit c = true) : isIdentChar c = true := by
  rw [isIdentChar, hc, Bool.or_true]

/-- The character with which an integer literal begins. -/
lemma literal_head {z : Int} (lit : Literal s z) :
    ∃ c r, s = c :: r ∧ (c = '-' ∨ isDigit c = true) := by
  cases lit with
  | natural ds =>
    cases s with
    | nil => exact absurd rfl ds.1
    | cons c r => exact ⟨c, r, rfl, .inr (ds.2 c (by simp))⟩
  | @negative r _ => exact ⟨'-', r, rfl, .inl rfl⟩

/-- An identifier is a character that begins names, and more that stand in them. -/
lemma identifier_head (id : Identifier s) :
    ∃ c r, s = c :: r ∧ isIdentStart c = true ∧ ∀ d ∈ s, isIdentChar d = true := by
  cases s with
  | nil => cases id
  | cons c r =>
    obtain ⟨hc, hr⟩ := identifier_iff.mp id
    refine ⟨c, r, rfl, hc, ?_⟩
    intro d mem
    rcases List.mem_cons.mp mem with rfl | mem
    · exact isIdentChar_of_start hc
    · exact hr d mem

/-- What a step passes does not begin with white space. -/
lemma Move.stops (mv : Move pos st s r st') : Stops isBlank (s ++ r) := by
  cases mv with
  | int lit _ =>
    obtain ⟨c, s, rfl, hc⟩ := literal_head lit
    apply stops_cons
    rcases hc with rfl | hc
    · rfl
    · exact isBlank_of_isIdentChar (isIdentChar_of_isDigit hc)
  | name nm _ _ _ _ =>
    obtain ⟨c, s, rfl, hc, _⟩ := identifier_head nm.identifier
    exact stops_cons (isBlank_of_isIdentChar (isIdentChar_of_start hc))
  | openRecord id _ =>
    obtain ⟨c, s, rfl, hc, _⟩ := identifier_head id
    exact stops_cons (isBlank_of_isIdentChar (isIdentChar_of_start hc))
  | _ => exact stops_cons rfl

/-! ### Names -/

/-- A capital or an underscore makes a name that of a variable. -/
lemma ofIdentifier_cons (ne : c :: s ≠ ['_']) :
    ofIdentifier (c :: s) =
      if isUpper c || c = '_' then .var (String.ofList (c :: s))
      else .sym (String.ofList (c :: s)) := by
  unfold ofIdentifier
  split
  · rename_i heq
    exact absurd heq ne
  · rename_i heq
    cases heq
    rfl
  · rename_i heq
    cases heq

/-- The reader takes an identifier for the term that it stands for. -/
lemma name_iff : Name s t ↔ Identifier s ∧ t = ofIdentifier s := by
  constructor
  · intro nm
    refine ⟨nm.identifier, ?_⟩
    cases nm with
    | anonymous => rfl
    | @named c s _ up ne =>
      rw [ofIdentifier_cons ne, if_pos]
      rw [isUpper_eq]
      simpa using up
    | @symbol c s _ low =>
      have ne : c :: s ≠ ['_'] := by
        rintro ⟨⟩
        cases low
      have nu : ¬ (isUpper c || c = '_') = true := by
        rw [isUpper_of_isLower low, Bool.false_or, decide_eq_true_eq]
        rintro rfl
        cases low
      rw [ofIdentifier_cons ne, if_neg nu]
  · rintro ⟨id, rfl⟩
    cases s with
    | nil => cases id
    | cons c s =>
      by_cases ne : c :: s = ['_']
      · cases ne
        exact .anonymous
      rw [ofIdentifier_cons ne]
      split
      · rename_i up
        rw [isUpper_eq] at up
        exact .named id (by simpa using up) ne
      · rename_i nu
        rw [isUpper_eq, Bool.or_eq_true, decide_eq_true_eq, not_or] at nu
        rcases id.1 with al | under
        · exact .symbol id ((isAlpha_iff.mp al).resolve_left nu.1)
        · exact absurd under nu.2

/-! ### Steps behind white space -/

/-- Where a term is due it begins behind white space. -/
lemma readStep_due (bl : Blanks w) (stop : Stops isBlank (c :: r)) :
    readStep (.due fs) ⟨w ++ c :: r, pos⟩ = begin fs c ⟨c :: r, pos.advanceAll w⟩ := by
  rw [readStep, Cursor.skipBlanks_append bl stop]
  rfl

/-- Where a term has ended, the open one goes on behind white space. -/
lemma readStep_ended (bl : Blanks w) (stop : Stops isBlank (c :: r)) :
    readStep (.ended t (frame :: fs)) ⟨w ++ c :: r, pos⟩ =
      resume t frame fs c ⟨c :: r, pos.advanceAll w⟩ := by
  rw [readStep, Cursor.skipBlanks_append bl stop]
  rfl

/-- A sign or a digit begins an integer. -/
lemma begin_int (hc : c = '-' ∨ isDigit c = true) :
    begin fs c cur =
      match cur.readInteger with
      | (.ok value, after) => (.more (.ended (.int value) fs), after)
      | (.error e, after) => (.done (.error e), after) := by
  have paren : c ≠ '(' := by
    rintro rfl
    rcases hc with hc | hc <;> cases hc
  have bracket : c ≠ '[' := by
    rintro rfl
    rcases hc with hc | hc <;> cases hc
  exact (if_neg paren).trans ((if_neg bracket).trans (if_pos (by simpa using hc)))

/-- A name begins a record if a parenthesis follows it, or else it is an atom or a variable. -/
lemma begin_name (hc : isIdentStart c = true) :
    begin fs c cur =
      if (cur.skip isIdentChar).skipBlanks.peek? = some '(' then
        (.more (.due (.record cur.pos (String.ofList (cur.span isIdentChar)) [] :: fs)),
          (cur.skip isIdentChar).skipBlanks.next)
      else (.more (.ended (ofIdentifier (cur.span isIdentChar)) fs),
        (cur.skip isIdentChar).skipBlanks) := by
  have paren : c ≠ '(' := by
    rintro rfl
    cases hc
  have bracket : c ≠ '[' := by
    rintro rfl
    cases hc
  have minus : ¬ (c = '-' || isDigit c) = true := by
    rw [isDigit_of_isIdentStart hc, Bool.or_false, decide_eq_true_eq]
    rintro rfl
    cases hc
  rw [begin, if_neg paren, if_neg bracket, if_neg minus, if_pos hc]

/-- White space ends a name as what comes behind it would. -/
lemma stops_of_blanks (bl : Blanks w) (stop : Stops isIdentChar r) :
    Stops isIdentChar (w ++ r) := by
  cases w with
  | nil => exact stop
  | cons d w =>
    apply stops_cons
    cases hc : isIdentChar d with
    | false => rfl
    | true =>
      have := blanks_iff.mp bl d (by simp)
      rw [isBlank_of_isIdentChar hc] at this
      cases this

/-- The reader takes every step that it can take. -/
theorem Move.step (bl : Blanks w) (mv : Move (pos.advanceAll w) st s r st') :
    readStep st ⟨w ++ s ++ r, pos⟩ = (.more st', ⟨r, pos.advanceAll (w ++ s)⟩) := by
  have stop := mv.stops
  rw [List.append_assoc, Position.advanceAll_append]
  cases mv with
  | openParen => exact readStep_due bl stop
  | @emptyList fs w' r bl' =>
    have inside : (Cursor.mk (w' ++ ']' :: r) ((pos.advanceAll w).advanceAll ['['])).skipBlanks =
        ⟨']' :: r, ((pos.advanceAll w).advanceAll ['[']).advanceAll w'⟩ :=
      Cursor.skipBlanks_append bl' (stops_cons rfl)
    rw [List.cons_append, List.cons_append, List.append_assoc] at stop ⊢
    rw [readStep_due bl stop, begin, if_neg (by decide), if_pos rfl, Cursor.next_mk]
    simp only [List.singleton_append, inside, Cursor.peek?_mk, if_true, Cursor.next_mk]
    rw [← Position.advanceAll_append, ← Position.advanceAll_append]
    rfl
  | openList bl' sb nb =>
    rw [List.cons_append] at stop ⊢
    rw [readStep_due bl stop, begin, if_neg (by decide), if_pos rfl, Cursor.next_mk]
    simp only [Cursor.skipBlanks_append bl' sb, Cursor.peek?, nb, if_false]
    rw [← Position.advanceAll_append]
    rfl
  | int lit sd =>
    obtain ⟨c, s, rfl, hc⟩ := literal_head lit
    rw [List.cons_append] at stop ⊢
    rw [readStep_due bl stop, begin_int hc, ← List.cons_append,
      Cursor.readInteger_of_literal lit sd]
  | @name fs s w' r t nm bl' si sb np =>
    obtain ⟨id, rfl⟩ := name_iff.mp nm
    obtain ⟨c, s, rfl, hc, all⟩ := identifier_head id
    rw [List.append_assoc] at stop ⊢
    rw [List.cons_append] at stop ⊢
    rw [readStep_due bl stop, begin_name hc, ← List.cons_append, Cursor.skip_append all si,
      Cursor.span_append all si, Cursor.skipBlanks_append bl' sb, Cursor.peek?, if_neg np,
      Position.advanceAll_append]
  | @openRecord fs f w' r id bl' =>
    obtain ⟨c, s, rfl, hc, all⟩ := identifier_head id
    have si : Stops isIdentChar (w' ++ '(' :: r) := stops_of_blanks bl' (stops_cons rfl)
    have sb : Stops isBlank ('(' :: r) := stops_cons rfl
    rw [List.append_assoc, List.append_assoc] at stop ⊢
    rw [List.cons_append] at stop ⊢
    rw [readStep_due bl stop, begin_name hc, ← List.cons_append]
    simp only [List.singleton_append, Cursor.skip_append all si, Cursor.span_append all si,
      Cursor.skipBlanks_append bl' sb, Cursor.peek?_mk, if_true, Cursor.next_mk]
    rw [Position.advanceAll_append, Position.advanceAll_append]
  | closeRecord le =>
    rw [List.singleton_append] at stop ⊢
    rw [readStep_ended bl stop, resume, Term.closeRecord, if_pos le]
    rfl
  | _ => exact readStep_ended bl stop

/-- What is taken for a name is an identifier. -/
lemma identifier_span (hc : cur.peek? = some c) (start : isIdentStart c = true) :
    Identifier (cur.span isIdentChar) := by
  obtain ⟨rest, pos⟩ := cur
  cases rest with
  | nil => cases hc
  | cons d rest =>
    cases hc
    have all : ∀ d ∈ rest.takeWhile isIdentChar, isIdentChar d = true :=
      List.all_eq_true.mp List.all_takeWhile
    rw [Cursor.span, List.takeWhile_cons_of_pos (isIdentChar_of_start start)]
    exact identifier_iff.mpr ⟨start, all⟩

/-! ### Going on inside an open term -/

/-- Inside parentheses a term is followed by the closing one. -/
lemma resume_paren :
    resume t .paren fs c cur =
      if c = ')' then (.more (.ended t fs), cur.next)
      else (.done (.error ⟨.expected Frame.paren.after (some c), cur.pos⟩), cur) := by
  split
  · rename_i right
    subst right
    rfl
  · rename_i other
    simp [resume, other]

/-- Inside a list a term is followed by the next one or by the end of the list. -/
lemma resume_list {es : List Term} :
    resume t (.list es) fs c cur =
      if c = ',' then (.more (.due (.list (t :: es) :: fs)), cur.next)
      else if c = ']' then (.more (.ended (Term.list (t :: es).reverse .nil) fs), cur.next)
      else (.done (.error ⟨.expected (Frame.list es).after (some c), cur.pos⟩), cur) := by
  split
  · rename_i comma
    subst comma
    rfl
  split
  · rename_i right
    subst right
    rfl
  · rename_i other other'
    simp [resume, other, other']

/-- Inside a record a term is followed by the next one or by the end of the record. -/
lemma resume_record {p : Position} {name : String} {es : List Term} :
    resume t (.record p name es) fs c cur =
      if c = ',' then (.more (.due (.record p name (t :: es) :: fs)), cur.next)
      else if c = ')' then (Term.closeRecord p name (t :: es) fs, cur.next)
      else (.done (.error ⟨.expected (Frame.record p name es).after (some c), cur.pos⟩), cur) := by
  split
  · rename_i comma
    subst comma
    rfl
  split
  · rename_i right
    subst right
    rfl
  · rename_i other other'
    simp [resume, other, other']

/-! ### The steps that are taken -/

/-- Beginning a term is one of the steps. -/
lemma exists_move_begin (hc : cur.peek? = some c) (h : begin fs c cur = (.more st', after)) :
    ∃ s, cur.Passes s after ∧ Move cur.pos (.due fs) s after.rest st' := by
  have first := Cursor.passes_next hc
  rw [begin] at h
  split at h
  · rename_i paren
    subst paren
    cases h
    exact ⟨['('], first, .openParen⟩
  split at h
  · rename_i bracket
    subst bracket
    obtain ⟨w, bl, stop, ps⟩ := cur.next.exists_skipBlanks
    dsimp only at h
    split at h
    · rename_i hb
      cases h
      exact ⟨_, (first.trans ps).trans (Cursor.passes_next hb), .emptyList bl⟩
    · rename_i hb
      cases h
      exact ⟨_, first.trans ps, .openList bl stop hb⟩
  split at h
  · rename_i hi
    split at h
    · rename_i hr
      cases h
      obtain ⟨s, lit, ps, stop⟩ := Cursor.literal_of_readInteger hc (by simpa using hi) hr
      exact ⟨s, ps, .int lit stop⟩
    · cases h
  split at h
  · rename_i start
    have id := identifier_span hc start
    obtain ⟨_, stop, ps⟩ := cur.exists_skip isIdentChar
    obtain ⟨w, bl, stop', ps'⟩ := (cur.skip isIdentChar).exists_skipBlanks
    dsimp only at h
    split at h
    · rename_i hp
      cases h
      exact ⟨_, (ps.trans ps').trans (Cursor.passes_next hp), .openRecord id bl⟩
    · rename_i hp
      cases h
      exact ⟨_, ps.trans ps', .name (name_iff.mpr ⟨id, rfl⟩) bl (ps'.1 ▸ stop) stop' hp⟩
  · cases h

/-- Going on with an open term is one of the steps. -/
lemma exists_move_resume (hc : cur.peek? = some c)
    (h : resume t frame fs c cur = (.more st', after)) :
    ∃ s, cur.Passes s after ∧ Move cur.pos (.ended t (frame :: fs)) s after.rest st' := by
  have first := Cursor.passes_next hc
  unfold resume at h
  split at h
  · cases h
    exact ⟨_, first, .closeParen⟩
  · cases h
    exact ⟨_, first, .nextElement⟩
  · cases h
    exact ⟨_, first, .closeList⟩
  · cases h
    exact ⟨_, first, .nextArgument⟩
  · obtain ⟨h, rfl⟩ := Prod.mk.inj h
    rw [closeRecord] at h
    split at h
    · rename_i le
      cases h
      exact ⟨_, first, .closeRecord le⟩
    · cases h
  · cases h

/-- The reader takes no other steps, and white space is all that it passes before a step. -/
theorem exists_move (h : readStep st cur = (.more st', after)) :
    ∃ w s, Blanks w ∧ cur.Passes (w ++ s) after ∧
      Move (cur.pos.advanceAll w) st s after.rest st' := by
  obtain ⟨w, bl, _, ps⟩ := cur.exists_skipBlanks
  cases st with
  | due fs =>
    rw [readStep] at h
    split at h
    · cases h
    · rename_i hc
      obtain ⟨s, ps', mv⟩ := exists_move_begin hc h
      exact ⟨w, s, bl, ps.trans ps', ps.2 ▸ mv⟩
  | ended t frames =>
    cases frames with
    | nil => cases h
    | cons frame fs =>
      rw [readStep] at h
      split at h
      · cases h
      · rename_i hc
        obtain ⟨s, ps', mv⟩ := exists_move_resume hc h
        exact ⟨w, s, bl, ps.trans ps', ps.2 ▸ mv⟩

end TermHeap.Term
