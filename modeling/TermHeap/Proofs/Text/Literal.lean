import TermHeap.Proofs.Text.Lexeme

/-!
# Integer literals of any length

The magnitude of a literal is built in a 64-bit register, however many digits there are. It never
leaves the range of the register, since a magnitude that passed the limit of its sign is set back to
the limit before the next digit (`Magnitude.toInt_next`), and it is not forgotten that it did. So a
literal is read as the integer that it spells, or refused if that has no 32 bits.
-/

namespace TermHeap.Cursor
open Grammar

variable {s r : List Char}

/-- **A literal is read exactly**, with a minus sign or without, and with any number of digits. All
of its characters are passed, and no more. It is read as the integer that it spells, if that lies in
the range of 32 bits; otherwise it is out of range, and the error is located at its first
character. On the way no product, sum or negation leaves the range of 64 bits. -/
theorem readInteger_exact (negative : Bool) (pos : Position) (ds : Digits s)
    (stop : Stops isDigit r) :
    let z := signedValue negative (Nat.ofDigitChars 10 s 0)
    let out := (Cursor.mk (literalText negative s ++ r) pos).readInteger
    out.2 = ⟨r, pos.advanceAll (literalText negative s)⟩ ∧
      (∀ v, out.1 = .ok v ↔ v.toInt = z) ∧
      ((∃ v, out.1 = .ok v) ↔ -2147483648 ≤ z ∧ z ≤ 2147483647) ∧
      (¬ (-2147483648 ≤ z ∧ z ≤ 2147483647) →
        ∃ e, out.1 = .error e ∧ e.message = "Integer out of range" ∧ e.pos = pos) ∧
      (∀ front c back, s = front ++ c :: back →
        let v := (Magnitude.ofDigits (magnitudeLimit negative) front).value
        (v * 10).toInt = v.toInt * 10 ∧
          (v * 10 + digitValue c).toInt = v.toInt * 10 + (c.toNat - '0'.toNat : Nat)) ∧
      let m := (Magnitude.ofDigits (magnitudeLimit negative) s).value
      (-m).toInt = -m.toInt := by
  intro z out
  have low := toInt_magnitudeLimit_nonneg negative
  have small := toInt_magnitudeLimit_le negative
  have read : out = (if -2147483648 ≤ z ∧ z < 2147483648 then .ok (Int32.ofInt z)
      else .error ⟨.integerOutOfRange, pos⟩, ⟨r, pos.advanceAll (literalText negative s)⟩) :=
    readInteger_append negative ds stop
  have exact : ∀ v, out.1 = .ok v ↔ v.toInt = z := by
    intro v
    rw [read]
    dsimp only
    split
    · rename_i fits
      rw [Except.ok.injEq, ← Int32.toInt_inj, Int32.toInt_ofInt_of_le fits.1 fits.2, eq_comm]
    · rename_i unfit
      refine ⟨nofun, fun hv => absurd ?_ unfit⟩
      rw [← hv]
      exact ⟨v.le_toInt, v.toInt_lt⟩
  refine ⟨by rw [read], exact, ?_, ?_, ?_, ?_⟩
  · constructor
    · rintro ⟨v, hv⟩
      rw [← (exact v).mp hv]
      exact ⟨v.le_toInt, Int.le_of_lt_add_one v.toInt_lt⟩
    · rintro ⟨lo, hi⟩
      exact ⟨Int32.ofInt z, (exact _).mpr (Int32.toInt_ofInt_of_le lo (Int.lt_add_one_of_le hi))⟩
  · intro unfit
    rw [read]
    dsimp only
    rw [if_neg fun fits => unfit ⟨fits.1, Int.le_of_lt_add_one fits.2⟩]
    exact ⟨_, rfl, rfl, rfl⟩
  · rintro front c back rfl
    have rd := Magnitude.reads_ofDigits low small (s := front) fun d mem => ds.2 d (by simp [mem])
    exact Magnitude.toInt_next small rd.nonneg rd.le (ds.2 c (by simp))
  · exact (Magnitude.reads_ofDigits low small ds.2).toInt_neg small

/-- The lowest integer with a leading zero is read, and the one below it is refused, as is a literal
that goes on for many digits after it passed the limit. -/
theorem readInteger_exact_limits :
    (Cursor.ofString "-02147483648)").readInteger = (.ok (-2147483648), ⟨[')'], ⟨1, 13, 12⟩⟩) ∧
      (∃ e, (Cursor.ofString "-2147483649").readInteger.1 = .error e ∧
        e.message = "Integer out of range" ∧ e.pos = ⟨1, 1, 0⟩) ∧
      ∃ e, (Cursor.ofString "99999999990000000000000001").readInteger.1 = .error e ∧
        e.message = "Integer out of range" ∧ e.pos = ⟨1, 1, 0⟩ := by
  obtain ⟨after, value, _⟩ := readInteger_exact (s := "02147483648".toList) (r := [')']) true .start
    ⟨by decide, by simp⟩ (stops_cons rfl)
  obtain ⟨_, _, _, below, _⟩ := readInteger_exact (s := "2147483649".toList) (r := []) true .start
    ⟨by decide, by simp⟩ nofun
  obtain ⟨_, _, _, long, _⟩ := readInteger_exact (s := "99999999990000000000000001".toList)
    (r := []) false .start ⟨by decide, by simp⟩ nofun
  exact ⟨Prod.ext ((value (-2147483648)).mpr (by decide)) after, below (by decide),
    long (by decide)⟩

end TermHeap.Cursor
