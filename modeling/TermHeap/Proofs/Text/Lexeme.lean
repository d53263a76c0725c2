import Mathlib.Data.List.Induction
import TermHeap.Text.Integer
import TermHeap.Proofs.Text.Grammar

/-!
# Lexemes under a cursor

`Passes cur s after` says that the cursor `after` is the cursor `cur` behind the text `s`. Skipping
a class of characters passes the longest run of them (`Cursor.skip_append`, `Cursor.exists_skip`),
so the text that a reader passes is cut into lexemes as the grammar cuts it. Reading an integer
literal passes its sign and all its digits and gives its value exactly if it has 32 bits
(`Cursor.readInteger_of_literal`, `Cursor.literal_of_readInteger`).
-/

namespace TermHeap
open Grammar

/-- The text does not begin with a character of the class. -/
def Stops (p : Char → Bool) (r : List Char) : Prop := ∀ c ∈ r.head?, p c = false

/-- A text stops a class if its first character is not of it. -/
lemma stops_cons {p : Char → Bool} {c : Char} {r : List Char} (no : p c = false) :
    Stops p (c :: r) := by
  intro d mem
  cases mem
  exact no

/-! ### Character classes -/

/-- The characters that are white space. -/
lemma isBlank_iff {c : Char} :
    isBlank c = true ↔ c ∈ [' ', '\t', '\n', '\x0b', '\x0c', '\r'] := by
  have eq : ∀ d : Char, c = d ↔ c.toNat = d.toNat := fun d => Char.toNat_inj.symm
  simp only [isBlank, List.mem_cons, List.not_mem_nil, or_false, eq, Bool.or_eq_true,
    Bool.and_eq_true, decide_eq_true_eq]
  simp only [show ' '.toNat = 32 from rfl, show '\t'.toNat = 9 from rfl,
    show '\n'.toNat = 10 from rfl, show '\x0b'.toNat = 11 from rfl, show '\x0c'.toNat = 12 from rfl,
    show '\r'.toNat = 13 from rfl]
  omega

/-- White space is made of such characters. -/
lemma blanks_iff {w : List Char} : Blanks w ↔ ∀ c ∈ w, isBlank c = true := by
  simp only [Blanks, isBlank_iff]

/-- Digits are those of the library. -/
lemma isDigit_eq (c : Char) : isDigit c = c.isDigit := rfl

/-- Capitals are those of the library. -/
lemma isUpper_eq (c : Char) : isUpper c = c.isUpper := by
  show (decide ('A' ≤ c) && decide (c ≤ 'Z')) = decide ('A' ≤ c ∧ c ≤ 'Z')
  rw [Bool.decide_and]

/-- Small letters are those of the library. -/
lemma isLower_eq (c : Char) : isLower c = c.isLower := rfl

/-- A letter is a capital or a small one. -/
lemma isAlpha_iff {c : Char} : c.isAlpha = true ↔ c.isUpper = true ∨ c.isLower = true := by
  show (c.isUpper || c.isLower) = true ↔ _
  rw [Bool.or_eq_true]

/-- A name begins with a letter or an underscore. -/
lemma isIdentStart_iff {c : Char} : isIdentStart c = true ↔ c.isAlpha ∨ c = '_' := by
  rw [isIdentStart, isLower_eq, isUpper_eq, Bool.or_comm c.isLower, Bool.or_eq_true,
    Bool.or_eq_true, ← isAlpha_iff, decide_eq_true_eq]

/-- A name goes on with letters, digits and underscores. -/
lemma isIdentChar_iff {c : Char} : isIdentChar c = true ↔ c.isAlphanum ∨ c = '_' := by
  rw [isIdentChar, Bool.or_eq_true, isIdentStart_iff, isDigit_eq, Char.isAlphanum, Bool.or_eq_true]
  exact or_right_comm

/-- The characters of an identifier are of these classes. -/
lemma identifier_iff {c : Char} {s : List Char} :
    Identifier (c :: s) ↔ isIdentStart c = true ∧ ∀ d ∈ s, isIdentChar d = true := by
  simp only [Identifier, isIdentStart_iff, isIdentChar_iff]

/-- What may begin a name may stand in it. -/
lemma isIdentChar_of_start {c : Char} (hc : isIdentStart c = true) : isIdentChar c = true := by
  rw [isIdentChar, hc, Bool.true_or]

/-! ### Passing over a text -/

/-- A text may be stepped over in two parts. -/
lemma Position.advanceAll_append (pos : Position) (s r : List Char) :
    pos.advanceAll (s ++ r) = (pos.advanceAll s).advanceAll r :=
  List.foldl_append

namespace Cursor

/-- The cursor `after` is the cursor `cur` behind the text `s`. -/
def Passes (cur : Cursor) (s : List Char) (after : Cursor) : Prop :=
  cur.rest = s ++ after.rest ∧ after.pos = cur.pos.advanceAll s

variable {cur mid after : Cursor} {p : Char → Bool} {s r : List Char} {pos : Position} {c : Char}

/-- Texts that are passed one after the other are passed as one. -/
lemma Passes.trans (ps : Passes cur s mid) (ps' : Passes mid r after) :
    Passes cur (s ++ r) after := by
  refine ⟨?_, ?_⟩
  · rw [ps.1, ps'.1, List.append_assoc]
  · rw [ps'.2, ps.2, Position.advanceAll_append]

/-- Between two texts that are passed one after the other there is a cursor. -/
lemma Passes.split (ps : Passes cur (s ++ r) after) :
    ∃ mid, Passes cur s mid ∧ Passes mid r after := by
  refine ⟨⟨r ++ after.rest, cur.pos.advanceAll s⟩, ⟨?_, rfl⟩, rfl, ?_⟩
  · rw [ps.1, List.append_assoc]
  · rw [ps.2, Position.advanceAll_append]

/-- What is passed was in front of the cursor. -/
lemma Passes.eq (ps : Passes cur s after) : cur = ⟨s ++ after.rest, cur.pos⟩ := by
  rw [← ps.1]

/-- A class stops at a cursor before a character that is not of it. -/
lemma Passes.stops (ps : Passes cur (c :: s) after) (no : p c = false) : Stops p cur.rest := by
  rw [ps.1]
  exact stops_cons no

/-- Taking a character passes it. -/
lemma passes_next (h : cur.peek? = some c) : Passes cur [c] cur.next := by
  obtain ⟨rest, pos⟩ := cur
  cases rest with
  | nil => cases h
  | cons d rest =>
    cases h
    exact ⟨rfl, rfl⟩

/-- Passing one character is taking it. -/
lemma Passes.next_eq (ps : Passes cur [c] after) : cur.peek? = some c ∧ cur.next = after := by
  rw [ps.eq]
  refine ⟨rfl, ?_⟩
  obtain ⟨rest, pos⟩ := after
  have e : pos = cur.pos.advanceAll [c] := ps.2
  rw [e]
  rfl

/-- The next character is the first that is left. -/
lemma peek?_mk : (Cursor.mk (c :: r) pos).peek? = some c := rfl

/-- Taking it leaves the others. -/
lemma next_mk : (Cursor.mk (c :: r) pos).next = ⟨r, pos.advanceAll [c]⟩ := rfl

/-- The longest run of a class is the text up to where the class stops. -/
lemma span_append (all : ∀ c ∈ s, p c = true) (stop : Stops p r) :
    (Cursor.mk (s ++ r) pos).span p = s := by
  have none : r.takeWhile p = [] := by
    cases r with
    | nil => rfl
    | cons c r => simp [stop c rfl]
  rw [span, List.takeWhile_append_of_pos all, none, List.append_nil]

/-- Skipping a class passes that run. -/
lemma skip_append (all : ∀ c ∈ s, p c = true) (stop : Stops p r) :
    (Cursor.mk (s ++ r) pos).skip p = ⟨r, pos.advanceAll s⟩ := by
  have none : r.dropWhile p = r := by
    cases r with
    | nil => rfl
    | cons c r => simp [stop c rfl]
  rw [skip, span_append all stop, List.dropWhile_append_of_pos all, none]

/-- Skipping a class passes a run of it behind which the class stops. -/
lemma exists_skip (cur : Cursor) (p : Char → Bool) :
    (∀ c ∈ cur.span p, p c = true) ∧ Stops p (cur.skip p).rest ∧
      Passes cur (cur.span p) (cur.skip p) := by
  refine ⟨List.all_eq_true.mp List.all_takeWhile, ?_, List.takeWhile_append_dropWhile.symm, rfl⟩
  intro c hc
  have := List.head?_dropWhile_not p cur.rest
  rw [show (cur.rest.dropWhile p).head? = some c from hc] at this
  exact this

/-- Skipping white space passes all of it. -/
lemma skipBlanks_append {w : List Char} (bl : Blanks w) (stop : Stops isBlank r) :
    (Cursor.mk (w ++ r) pos).skipBlanks = ⟨r, pos.advanceAll w⟩ :=
  skip_append (blanks_iff.mp bl) stop

/-- What is skipped is white space, up to something else. -/
lemma exists_skipBlanks (cur : Cursor) :
    ∃ w, Blanks w ∧ Stops isBlank cur.skipBlanks.rest ∧ Passes cur w cur.skipBlanks := by
  obtain ⟨all, stop, ps⟩ := cur.exists_skip isBlank
  exact ⟨_, blanks_iff.mpr all, stop, ps⟩

/-- White space that has been passed makes no difference to what is behind it. -/
lemma skipBlanks_of_passes {w : List Char} (bl : Blanks w) (ps : Passes cur w after) :
    cur.skipBlanks = after.skipBlanks := by
  obtain ⟨w', bl', stop, ps'⟩ := after.exists_skipBlanks
  have both := ps.trans ps'
  rw [both.eq, skipBlanks_append (bl.append bl') stop, ← both.2]

/-- Where there is no white space nothing is skipped. -/
lemma skipBlanks_of_stops (stop : Stops isBlank cur.rest) : cur.skipBlanks = cur :=
  skipBlanks_append (w := []) .nil stop

/-- Nothing is left to skip behind white space. -/
lemma skipBlanks_skipBlanks (cur : Cursor) : cur.skipBlanks.skipBlanks = cur.skipBlanks := by
  obtain ⟨w, bl, _, ps⟩ := cur.exists_skipBlanks
  exact (skipBlanks_of_passes bl ps).symm

end Cursor

/-! ### Integer literals -/

/-- The integer of a sign and a magnitude. -/
def signedValue (negative : Bool) (magnitude : Nat) : Int :=
  if negative then -(magnitude : Int) else magnitude

/-- The text of a sign and digits. -/
def literalText (negative : Bool) (digits : List Char) : List Char :=
  if negative then '-' :: digits else digits

/-- The greatest magnitudes with and without a sign. -/
lemma toInt_magnitudeLimit (negative : Bool) :
    (magnitudeLimit negative).toInt = if negative then 2147483648 else 2147483647 := by
  cases negative with
  | true => rfl
  | false => rfl

/-- No magnitude of a 32-bit integer is greater than that of the least one. -/
lemma toInt_magnitudeLimit_le (negative : Bool) :
    (magnitudeLimit negative).toInt ≤ 2147483648 := by
  rw [toInt_magnitudeLimit]
  split <;> omega

/-- The greatest magnitudes are not negative. -/
lemma toInt_magnitudeLimit_nonneg (negative : Bool) : 0 ≤ (magnitudeLimit negative).toInt := by
  rw [toInt_magnitudeLimit]
  split <;> omega

/-- The value of a digit is its distance from zero. -/
lemma toInt_digitValue {c : Char} (hc : isDigit c = true) :
    (digitValue c).toInt = (c.toNat - '0'.toNat : Nat) ∧ c.toNat - '0'.toNat ≤ 9 := by
  have le : c.toNat - '0'.toNat ≤ 9 := by
    rw [isDigit, Bool.and_eq_true, decide_eq_true_eq, decide_eq_true_eq, Char.le_def,
      Char.le_def] at hc
    have upper : c.toNat ≤ 57 := hc.2
    have zero : '0'.toNat = 48 := rfl
    omega
  exact ⟨Int64.toInt_ofNat_of_lt (by omega), le⟩

namespace Magnitude

variable {limit : Int64} {m : Magnitude} {s : List Char} {c : Char}

/-- A magnitude within the limit has room for another digit in 64 bits. -/
lemma toInt_next (small : limit.toInt ≤ 2147483648) (lo : 0 ≤ m.value.toInt)
    (hi : m.value.toInt ≤ limit.toInt) (hc : isDigit c = true) :
    (m.value * 10).toInt = m.value.toInt * 10 ∧
      (m.value * 10 + digitValue c).toInt = m.value.toInt * 10 + (c.toNat - '0'.toNat : Nat) := by
  obtain ⟨digit, le⟩ := toInt_digitValue hc
  have ten : (10 : Int64).toInt = 10 := rfl
  have times : (m.value * 10).toInt = m.value.toInt * 10 := by
    rw [Int64.toInt_mul, ten]
    exact Int.bmod_eq_of_le (by omega) (by omega)
  refine ⟨times, ?_⟩
  rw [Int64.toInt_add, times, digit]
  exact Int.bmod_eq_of_le (by omega) (by omega)

/-- The magnitude is that of the digits, or at the limit once they passed it. -/
structure Reads (limit : Int64) (s : List Char) (m : Magnitude) : Prop where
  nonneg : 0 ≤ m.value.toInt
  le : m.value.toInt ≤ limit.toInt
  overflow : m.overflow = true ↔ limit.toInt < Nat.ofDigitChars 10 s 0
  value : m.overflow = false → m.value.toInt = Nat.ofDigitChars 10 s 0

/-- A magnitude is built digit by digit. -/
lemma ofDigits_concat (limit : Int64) (s : List Char) (c : Char) :
    ofDigits limit (s ++ [c]) = (ofDigits limit s).append limit c := by
  rw [ofDigits, List.foldl_append]
  rfl

/-- Another digit makes the magnitude that of one digit more. -/
lemma Reads.append (rd : m.Reads limit s) (small : limit.toInt ≤ 2147483648)
    (hc : isDigit c = true) : (m.append limit c).Reads limit (s ++ [c]) := by
  have lo := rd.nonneg
  have hi := rd.le
  have next := (toInt_next small lo hi hc).2
  have digits : Nat.ofDigitChars 10 (s ++ [c]) 0 =
      10 * Nat.ofDigitChars 10 s 0 + (c.toNat - '0'.toNat) := by
    rw [Nat.ofDigitChars_append, Nat.ofDigitChars_cons]
    rfl
  simp only [Magnitude.append, Int64.lt_iff_toInt_lt, next]
  cases past : m.overflow with
  | true =>
    -- what passed the limit before passes it with another digit too
    have passed := rd.overflow.mp past
    split
    · exact ⟨by dsimp only; omega, Int.le_refl _, by simp; omega, nofun⟩
    · exact ⟨by dsimp only; omega, by dsimp only; omega, by simp; omega, nofun⟩
  | false =>
    have value := rd.value past
    split
    · exact ⟨by dsimp only; omega, Int.le_refl _, by simp; omega, nofun⟩
    · refine ⟨by dsimp only; omega, by dsimp only; omega, ?_, fun _ => by dsimp only; omega⟩
      simp only [Bool.false_eq_true, false_iff]
      omega

/-- A magnitude is that of its digits. -/
lemma reads_ofDigits (pos : 0 ≤ limit.toInt) (small : limit.toInt ≤ 2147483648)
    (ds : ∀ c ∈ s, isDigit c = true) : (ofDigits limit s).Reads limit s := by
  induction s using List.reverseRecOn with
  | nil =>
    have below : ¬ limit.toInt < 0 := Int.not_lt.mpr pos
    exact ⟨Int.le_refl _, pos, ⟨nofun, fun lt => absurd lt below⟩, fun _ => rfl⟩
  | append_singleton s c ih =>
    rw [ofDigits_concat]
    exact (ih fun d mem => ds d (by simp [mem])).append small (ds c (by simp))

/-- A magnitude within the limit can be negated in 64 bits. -/
lemma Reads.toInt_neg (rd : m.Reads limit s) (small : limit.toInt ≤ 2147483648) :
    (-m.value).toInt = -m.value.toInt := by
  have lo := rd.nonneg
  have hi := rd.le
  rw [Int64.toInt_neg]
  exact Int.bmod_eq_of_le (by omega) (by omega)

/-- The 32-bit integer of a magnitude and a sign has their value. -/
lemma Reads.signed {negative : Bool} (rd : m.Reads limit s) (small : limit.toInt ≤ 2147483648)
    (exact : m.overflow = false) :
    m.signed negative = Int32.ofInt (signedValue negative (Nat.ofDigitChars 10 s 0)) := by
  apply Int32.toInt_inj.mp
  rw [Magnitude.signed, Int64.toInt_toInt32, Int32.toInt_ofInt, signedValue, ← rd.value exact]
  cases negative with
  | true => rw [if_pos rfl, if_pos rfl, rd.toInt_neg small]
  | false => rw [if_neg Bool.false_ne_true, if_neg Bool.false_ne_true]

end Magnitude

namespace Cursor

variable {s r : List Char} {pos start : Position} {cur after : Cursor} {negative : Bool} {c : Char}
  {v : Int32}

/-- A magnitude is within its limit exactly if the integer has 32 bits. -/
lemma magnitude_fits_iff {n : Nat} :
    ¬ (magnitudeLimit negative).toInt < n ↔
      -2147483648 ≤ signedValue negative n ∧ signedValue negative n < 2147483648 := by
  rw [toInt_magnitudeLimit, signedValue]
  cases negative with
  | true =>
    rw [if_pos rfl, if_pos rfl]
    omega
  | false =>
    rw [if_neg Bool.false_ne_true, if_neg Bool.false_ne_true]
    omega

/-- Reading digits passes all of them and gives the value of the literal, unless that value does not
have 32 bits. -/
lemma readDigits_append (ds : ∀ c ∈ s, isDigit c = true) (stop : Stops isDigit r) :
    (Cursor.mk (s ++ r) pos).readDigits start negative =
      (if -2147483648 ≤ signedValue negative (Nat.ofDigitChars 10 s 0) ∧
          signedValue negative (Nat.ofDigitChars 10 s 0) < 2147483648 then
        .ok (Int32.ofInt (signedValue negative (Nat.ofDigitChars 10 s 0)))
      else .error ⟨.integerOutOfRange, start⟩, ⟨r, pos.advanceAll s⟩) := by
  have rd := Magnitude.reads_ofDigits (toInt_magnitudeLimit_nonneg negative)
    (toInt_magnitudeLimit_le negative) ds
  simp only [readDigits, span_append ds stop, skip_append ds stop]
  cases past : (Magnitude.ofDigits (magnitudeLimit negative) s).overflow with
  | true =>
    rw [if_pos rfl, if_neg fun fits => magnitude_fits_iff.mpr fits (rd.overflow.mp past)]
  | false =>
    have fits := magnitude_fits_iff.mp fun lt => absurd (rd.overflow.mpr lt) (by simp [past])
    rw [if_neg Bool.false_ne_true, if_pos fits, rd.signed (toInt_magnitudeLimit_le negative) past]

/-- Reading a literal passes its sign and all its digits. -/
lemma readInteger_append (negative : Bool) (ds : Digits s) (stop : Stops isDigit r) :
    (Cursor.mk (literalText negative s ++ r) pos).readInteger =
      (if -2147483648 ≤ signedValue negative (Nat.ofDigitChars 10 s 0) ∧
          signedValue negative (Nat.ofDigitChars 10 s 0) < 2147483648 then
        .ok (Int32.ofInt (signedValue negative (Nat.ofDigitChars 10 s 0)))
      else .error ⟨.integerOutOfRange, pos⟩, ⟨r, pos.advanceAll (literalText negative s)⟩) := by
  obtain ⟨ne, digits⟩ := ds
  obtain ⟨c, t, rfl⟩ := List.exists_cons_of_ne_nil ne
  have hc := digits c List.mem_cons_self
  cases negative with
  | true =>
    have digit : (Cursor.mk (c :: t ++ r) (pos.advanceAll ['-'])).peek?.any isDigit = true := hc
    rw [literalText, if_pos rfl, readInteger, List.cons_append, peek?_mk, if_pos rfl, next_mk]
    simp only [digit, if_true]
    rw [readDigits_append digits stop]
    rfl
  | false =>
    have minus : (Cursor.mk (c :: t ++ r) pos).peek? ≠ some '-' := by
      rw [List.cons_append, peek?_mk]
      rintro ⟨⟩
      cases hc
    rw [literalText, if_neg Bool.false_ne_true, readInteger, if_neg minus,
      readDigits_append digits stop]

/-- The text of a 32-bit integer is read as that integer. -/
lemma readInteger_of_literal (lit : Literal s v.toInt) (stop : Stops isDigit r) :
    (Cursor.mk (s ++ r) pos).readInteger = (.ok v, ⟨r, pos.advanceAll s⟩) := by
  have fits : -2147483648 ≤ v.toInt ∧ v.toInt < 2147483648 := ⟨v.le_toInt, v.toInt_lt⟩
  generalize hz : v.toInt = z at lit fits
  have back : Int32.ofInt z = v := hz ▸ v.ofInt_toInt
  cases lit with
  | @natural s ds =>
    refine (readInteger_append false ds stop).trans ?_
    rw [signedValue, if_neg Bool.false_ne_true, if_pos fits, back]
    rfl
  | @negative s ds =>
    refine (readInteger_append true ds stop).trans ?_
    rw [signedValue, if_pos rfl, if_pos fits, back]
    rfl

/-- What digits are read as is the integer that they spell, behind a minus sign or without one. -/
lemma digits_of_readDigits (hc : cur.peek?.any isDigit = true)
    (hr : cur.readDigits start negative = (.ok v, after)) :
    ∃ s, Digits s ∧ Passes cur s after ∧ Stops isDigit after.rest ∧
      v.toInt = signedValue negative (Nat.ofDigitChars 10 s 0) := by
  obtain ⟨ds, stop, ps⟩ := cur.exists_skip isDigit
  have ne : cur.span isDigit ≠ [] := by
    obtain ⟨rest, pos⟩ := cur
    cases rest with
    | nil => cases hc
    | cons c rest =>
      have : isDigit c = true := hc
      simp [span, this]
  rw [ps.eq, readDigits_append ds stop] at hr
  obtain ⟨hv, rfl⟩ := Prod.mk.inj hr
  split at hv
  · rename_i fits
    cases hv
    refine ⟨cur.span isDigit, ⟨ne, ds⟩, ?_, stop, Int32.toInt_ofInt_of_le fits.1 fits.2⟩
    exact ⟨ps.1, rfl⟩
  · cases hv

/-- What is read as an integer is the text of that integer. -/
lemma literal_of_readInteger (hc : cur.peek? = some c) (start : c = '-' ∨ isDigit c = true)
    (hr : cur.readInteger = (.ok v, after)) :
    ∃ s, Literal s v.toInt ∧ Passes cur s after ∧ Stops isDigit after.rest := by
  rw [readInteger] at hr
  split at hr
  · rename_i minus
    dsimp only at hr
    split at hr
    · rename_i digit
      obtain ⟨s, ds, ps, stop, e⟩ := digits_of_readDigits digit hr
      refine ⟨'-' :: s, ?_, (passes_next minus).trans ps, stop⟩
      rw [e]
      exact .negative ds
    · cases hr
  · rename_i noMinus
    have digit : cur.peek?.any isDigit = true := by
      rcases start with rfl | digit
      · exact absurd hc noMinus
      · rw [hc]
        exact digit
    obtain ⟨s, ds, ps, stop, e⟩ := digits_of_readDigits digit hr
    refine ⟨s, ?_, ps, stop⟩
    rw [e]
    exact .natural ds

end Cursor
end TermHeap
