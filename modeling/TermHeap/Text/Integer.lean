import TermHeap.Text.Error

/-!
# Integer literals

An optional minus sign and a run of digits, of any length. The magnitude is built digit by digit in
a 64-bit register. As soon as it passes the limit of its sign it is set back to the limit, and it is
remembered that it did.
-/

namespace TermHeap

/-- The largest magnitude of a 32-bit integer of either sign. -/
def magnitudeLimit (negative : Bool) : Int64 := if negative then 2147483648 else 2147483647

/-- The value of a digit. -/
def digitValue (c : Char) : Int64 := Int64.ofNat (c.toNat - '0'.toNat)

/-- The magnitude of the digits read so far, and whether it ever passed the limit. -/
structure Magnitude where
  value : Int64
  overflow : Bool
deriving DecidableEq, Repr

namespace Magnitude

/-- Append a digit. -/
def append (limit : Int64) (m : Magnitude) (c : Char) : Magnitude :=
  let next := m.value * 10 + digitValue c
  if limit < next then ⟨limit, true⟩ else ⟨next, m.overflow⟩

/-- The magnitude that digits stand for. -/
def ofDigits (limit : Int64) (digits : List Char) : Magnitude :=
  digits.foldl (append limit) ⟨0, false⟩

/-- The 32-bit integer of a magnitude and a sign. -/
def signed (m : Magnitude) (negative : Bool) : Int32 :=
  (if negative then -m.value else m.value).toInt32

end Magnitude

namespace Cursor

/-- Read the digits of a literal that started at `start`. -/
def readDigits (cur : Cursor) (start : Position) (negative : Bool) : Parsed Int32 :=
  let after := cur.skip isDigit
  let m := Magnitude.ofDigits (magnitudeLimit negative) (cur.span isDigit)
  if m.overflow then (.error ⟨.integerOutOfRange, start⟩, after)
  else (.ok (m.signed negative), after)

/-- Read an integer literal. The cursor stands at a minus sign or a digit. -/
def readInteger (cur : Cursor) : Parsed Int32 :=
  if cur.peek? = some '-' then
    let digits := cur.next
    if digits.peek?.any isDigit then digits.readDigits cur.pos true
    else (.error ⟨.expectedDigit digits.peek?, digits.pos⟩, digits)
  else cur.readDigits cur.pos false

/-- Reading digits steps over all of them, whatever their value. -/
theorem readDigits_snd (cur : Cursor) (start : Position) (negative : Bool) :
    (cur.readDigits start negative).2 = cur.skip isDigit := by
  simp only [readDigits]
  split <;> rfl

/-- Reading digits never goes back. -/
theorem length_readDigits_le (cur : Cursor) (start : Position) (negative : Bool) :
    (cur.readDigits start negative).2.rest.length ≤ cur.rest.length := by
  rw [readDigits_snd]
  exact cur.length_skip_le isDigit

/-- An integer literal has a character. -/
theorem length_readInteger_lt {cur : Cursor} {c : Char} (h : cur.peek? = some c)
    (hc : c = '-' ∨ isDigit c = true) :
    cur.readInteger.2.rest.length < cur.rest.length := by
  unfold readInteger
  split
  · have hn := length_next_lt h
    dsimp only
    split
    · exact Nat.lt_of_le_of_lt (length_readDigits_le _ _ _) hn
    · exact hn
  · rename_i hm
    have hd : isDigit c = true := by
      rcases hc with rfl | hd
      · exact absurd h hm
      · exact hd
    rw [readDigits_snd]
    exact length_skip_lt h hd

end Cursor
end TermHeap
