import Mathlib.Algebra.Group.Nat.Defs
import TermHeap.Cell.Word

/-!
# Cells keep their fields in a word

The fields of a word lie side by side, so that putting them together by `or` is an addition
(`toNat_or_shiftLeft`) and the word of a cell is a number: eight times the narrowed payload, plus
the kind (`toNat_toWord`). The readers of a word divide that number (`wordPayload_eq`,
`wordSignature_name`), hence a word reads back as the narrowed cell (`ofWord?_toWord`), and nothing
else of a cell is lost (`toWord_eq_iff`).
-/

namespace TermHeap.Cell

/-- What a cell carries besides its kind, as a number of any size. -/
def payload : Cell → Nat
  | .ref target => target
  | .rcd target => target
  | .int value => value.toUInt32.toNat
  | .sym name => name.index
  | .sig f => f.arity + 256 * f.name.index
  | .lst car => car
  | .nil => 0

/-- The word of the cell has room for its payload. -/
def Fits : Cell → Prop
  | .ref target => target < 2 ^ 61
  | .rcd target => target < 2 ^ 61
  | .int _ => True
  | .sym name => name.index < 2 ^ 61
  | .sig f => f.name.index < 2 ^ 53
  | .lst car => car < 2 ^ 61
  | .nil => True

/-- It can be decided whether a cell fits into a word. -/
instance : DecidablePred Fits
  | .ref target => inferInstanceAs (Decidable (target < 2 ^ 61))
  | .rcd target => inferInstanceAs (Decidable (target < 2 ^ 61))
  | .int _ => inferInstanceAs (Decidable True)
  | .sym name => inferInstanceAs (Decidable (name.index < 2 ^ 61))
  | .sig f => inferInstanceAs (Decidable (f.name.index < 2 ^ 53))
  | .lst car => inferInstanceAs (Decidable (car < 2 ^ 61))
  | .nil => inferInstanceAs (Decidable True)

variable {c d : Cell}

/-! ### Fields side by side -/

/-- A field `b` above the `k` bits of a field `a`, which loses what does not fit into a word. -/
lemma toNat_or_shiftLeft {a b k : UInt64} (hk : k.toNat < 64) (ha : a.toNat < 2 ^ k.toNat) :
    (a ||| b <<< k).toNat = a.toNat + 2 ^ k.toNat * (b.toNat % 2 ^ (64 - k.toNat)) := by
  -- what the shift drops are the `k` highest bits of `b`
  have room : (b <<< k).toNat = (b.toNat % 2 ^ (64 - k.toNat)) <<< k.toNat := by
    rw [UInt64.toNat_shiftLeft, Nat.mod_eq_of_lt hk, Nat.shiftLeft_eq, Nat.shiftLeft_eq,
      ← Nat.mul_mod_mul_right, ← Nat.pow_add, Nat.sub_add_cancel (Nat.le_of_lt hk)]
  rw [UInt64.toNat_or, room, Nat.or_comm, ← Nat.shiftLeft_add_eq_or_of_lt ha, Nat.shiftLeft_eq,
    Nat.add_comm, Nat.mul_comm]

/-- A packed word is eight times what is left of its payload, plus its kind. -/
lemma toNat_packed {kind p : UInt64} (hk : kind.toNat < 8) :
    (packed kind p).toNat = kind.toNat + 8 * (p.toNat % payloadSpan) :=
  toNat_or_shiftLeft (k := 3) (by decide) hk

/-- Of a payload that is any number a packed word keeps the low bits. -/
lemma toNat_packed_ofNat {kind : UInt64} {n : Nat} (hk : kind.toNat < 8) :
    (packed kind (UInt64.ofNat n)).toNat = kind.toNat + 8 * (n % payloadSpan) := by
  rw [toNat_packed hk, UInt64.toNat_ofNat', Nat.mod_mod_of_dvd n (by decide)]

/-- Arity and symbol of a signature together are one payload. -/
lemma toWord_sig (f : Signature) :
    (sig f).toWord = packed 4 (UInt64.ofNat f.arity ||| UInt64.ofNat f.name.index <<< 8) := by
  have shifts : UInt64.ofNat f.name.index <<< 8 <<< 3 = UInt64.ofNat f.name.index <<< 11 :=
    (UInt64.shiftLeft_add (by decide) (by decide) (by decide)).symm
  rw [packed, UInt64.shiftLeft_or, shifts, ← UInt64.or_assoc]
  rfl

/-- The payload of a signature is what is left of it, as a number. -/
lemma toNat_signaturePayload (f : Signature) :
    (UInt64.ofNat f.arity ||| UInt64.ofNat f.name.index <<< 8).toNat % payloadSpan =
      (sig f).narrow.payload := by
  have le : f.arity ≤ 255 := f.arity_le
  have arity : (UInt64.ofNat f.arity).toNat = f.arity := by
    rw [UInt64.toNat_ofNat', Nat.mod_eq_of_lt (by omega)]
  rw [toNat_or_shiftLeft (k := 8) (by decide) (by rw [arity]; exact Nat.lt_succ_of_le le), arity,
    UInt64.toNat_ofNat']
  change (f.arity + 2 ^ 8 * (f.name.index % 2 ^ 64 % 2 ^ 56)) % 2 ^ 61 =
    f.arity + 256 * (f.name.index % 2 ^ 53)
  omega

/-! ### Words of cells -/

/-- A kind has three bits. -/
lemma toNat_tag_lt (c : Cell) : c.tag.toNat < 8 := by
  cases c <;> simp [tag]

/-- Narrowing a cell cuts its payload to the bits that a word has for it. -/
lemma payload_narrow (c : Cell) : c.narrow.payload = c.payload % payloadSpan := by
  cases c with
  | ref | rcd | sym | lst | nil => rfl
  | int value =>
    have lt := value.toUInt32.toNat_lt
    exact (Nat.mod_eq_of_lt (Nat.lt_trans lt (by decide))).symm
  | sig f =>
    have le : f.arity ≤ 255 := f.arity_le
    change f.arity + 256 * (f.name.index % 2 ^ 53) = (f.arity + 256 * f.name.index) % 2 ^ 61
    omega

/-- A cell fits into its word exactly if narrowing takes nothing away. -/
lemma narrow_eq_self_iff : c.narrow = c ↔ c.Fits := by
  cases c with
  | ref | rcd | lst =>
    simp only [narrow, ref.injEq, rcd.injEq, lst.injEq]
    exact Nat.mod_eq_iff_lt (by decide)
  | sym name =>
    obtain ⟨n⟩ := name
    rw [narrow, sym.injEq, Symbol.mk.injEq]
    exact Nat.mod_eq_iff_lt (by decide)
  | sig f =>
    obtain ⟨⟨n⟩, arity, le⟩ := f
    simp only [narrow, sig.injEq, Signature.mk.injEq, Symbol.mk.injEq, and_true]
    exact Nat.mod_eq_iff_lt (by decide)
  | int | nil => exact iff_of_true rfl trivial

/-- The word of a cell as a number. -/
theorem toNat_toWord (c : Cell) : c.toWord.toNat = c.tag.toNat + 8 * c.narrow.payload := by
  have lt := toNat_tag_lt c
  cases c with
  | ref | rcd | sym | lst => exact toNat_packed_ofNat lt
  | int value =>
    rw [toWord, toNat_packed lt, UInt32.toNat_toUInt64, payload_narrow]
    rfl
  | sig f =>
    rw [toWord_sig, toNat_packed (by decide), toNat_signaturePayload]
    rfl
  | nil => rfl

/-- Two words are the same exactly if the cells are of one kind and their payloads agree as far as
a word has room for them. -/
theorem toWord_eq_iff :
    c.toWord = d.toWord ↔ c.tag = d.tag ∧ c.payload % payloadSpan = d.payload % payloadSpan := by
  have hc := toNat_tag_lt c
  have hd := toNat_tag_lt d
  rw [← UInt64.toNat_inj, ← UInt64.toNat_inj, toNat_toWord, toNat_toWord, payload_narrow,
    payload_narrow]
  omega

/-! ### Reading a word -/

/-- The kind of a word is in its lowest three bits. -/
lemma toNat_wordTag (w : UInt64) : (wordTag w).toNat = w.toNat % 8 := by
  rw [wordTag, UInt64.toNat_and]
  exact Nat.and_two_pow_sub_one_eq_mod w.toNat 3

/-- The payload of a word is in the other bits. -/
lemma wordPayload_eq (w : UInt64) : wordPayload w = w.toNat / 8 := by
  rw [wordPayload, UInt64.toNat_shiftRight]
  exact Nat.shiftRight_eq_div_pow w.toNat 3

/-- The symbol of a signature lies above its arity in the payload. -/
lemma wordSignature_name (w : UInt64) : (wordSignature w).name = ⟨wordPayload w / 256⟩ := by
  rw [wordPayload_eq, Nat.div_div_eq_div_mul, Symbol.mk.injEq]
  exact (UInt64.toNat_shiftRight w 11).trans (Nat.shiftRight_eq_div_pow w.toNat 11)

/-- The arity of a signature is in the lowest eight bits of the payload. -/
lemma wordSignature_arity (w : UInt64) : (wordSignature w).arity = wordPayload w % 256 :=
  (UInt64.toNat_and _ _).trans (Nat.and_two_pow_sub_one_eq_mod (wordPayload w) 8)

/-- The word of a cell has the kind of the cell. -/
lemma wordTag_toWord (c : Cell) : wordTag c.toWord = c.tag := by
  have lt := toNat_tag_lt c
  rw [← UInt64.toNat_inj, toNat_wordTag, toNat_toWord]
  omega

/-- The word of a cell has the payload of the narrowed cell. -/
lemma wordPayload_toWord (c : Cell) : wordPayload c.toWord = c.narrow.payload := by
  have lt := toNat_tag_lt c
  rw [wordPayload_eq, toNat_toWord]
  omega

/-- The sign of an integer is read back from the highest of its 32 bits. -/
lemma wordInt_toWord (value : Int32) : wordInt (int value).toWord = value := by
  have back : ((int value).toWord >>> 3).toNat = value.toUInt32.toNat :=
    wordPayload_toWord (int value)
  have low : ((int value).toWord >>> 3).toUInt32 = value.toUInt32 := by
    rw [← UInt32.toNat_inj, UInt64.toNat_toUInt32, back, Nat.mod_eq_of_lt value.toUInt32.toNat_lt]
  rw [wordInt, low, Int32.toInt32_toUInt32]

/-- The word of a signature has its arity, and its symbol as far as there is room. -/
lemma wordSignature_toWord (f : Signature) :
    wordSignature (sig f).toWord = ⟨⟨f.name.index % signatureSpan⟩, f.arity, f.arity_le⟩ := by
  have lt : f.arity < 256 := Nat.lt_succ_of_le f.arity_le
  have back : wordPayload (sig f).toWord = f.arity + 256 * (f.name.index % signatureSpan) :=
    wordPayload_toWord (sig f)
  apply Signature.ext'
  · rw [wordSignature_name, back, Nat.add_mul_div_left _ _ (by decide), Nat.div_eq_of_lt lt,
      Nat.zero_add]
  · rw [wordSignature_arity, back, Nat.add_mul_mod_self_left, Nat.mod_eq_of_lt lt]

/-- A word reads back as the narrowed cell. -/
theorem ofWord?_toWord (c : Cell) : ofWord? c.toWord = some c.narrow := by
  rw [ofWord?, wordTag_toWord]
  cases c with
  | ref target => exact congrArg (some ∘ ref) (wordPayload_toWord (ref target))
  | rcd target => exact congrArg (some ∘ rcd) (wordPayload_toWord (rcd target))
  | sym name => exact congrArg (some ∘ sym ∘ Symbol.mk) (wordPayload_toWord (sym name))
  | lst car => exact congrArg (some ∘ lst) (wordPayload_toWord (lst car))
  | int value => exact congrArg (some ∘ int) (wordInt_toWord value)
  | sig f => exact congrArg (some ∘ sig) (wordSignature_toWord f)
  | nil => rfl

/-- **A cell is kept by its word as far as the fields are wide.** The kind of the cell is read back,
and its payload modulo `2 ^ 61`. A cell that fits is read back as it is, and different cells that fit
have different words. Of other cells exactly the high bits are lost: an address or the symbol of an
atom is read back modulo `2 ^ 61` and the symbol of a signature modulo `2 ^ 53`, with its arity
intact, and cells share a word only if they are of one kind and differ in these bits alone. -/
theorem toWord_faithful :
    (∀ c : Cell, wordTag c.toWord = c.tag ∧ wordPayload c.toWord = c.payload % 2 ^ 61) ∧
    (∀ c : Cell, c.Fits → wordPayload c.toWord = c.payload) ∧
    (∀ c : Cell, ofWord? c.toWord = some c ↔ c.Fits) ∧
    (∀ c d : Cell, c.Fits → d.Fits → c ≠ d → c.toWord ≠ d.toWord) ∧
    (∀ n, ofWord? (ref n).toWord = some (ref (n % 2 ^ 61)) ∧
      ofWord? (rcd n).toWord = some (rcd (n % 2 ^ 61)) ∧
      ofWord? (lst n).toWord = some (lst (n % 2 ^ 61)) ∧
      ofWord? (sym ⟨n⟩).toWord = some (sym ⟨n % 2 ^ 61⟩) ∧
      ∀ arity le, ofWord? (sig ⟨⟨n⟩, arity, le⟩).toWord = some (sig ⟨⟨n % 2 ^ 53⟩, arity, le⟩)) ∧
    ∀ c d : Cell, c.toWord = d.toWord ↔
      c.tag = d.tag ∧ c.payload % 2 ^ 61 = d.payload % 2 ^ 61 := by
  have reads : ∀ c : Cell, ofWord? c.toWord = some c ↔ c.Fits := by
    intro c
    rw [ofWord?_toWord, Option.some.injEq, narrow_eq_self_iff]
  refine ⟨?_, ?_, reads, ?_, ?_, fun c d => toWord_eq_iff⟩
  · intro c
    exact ⟨wordTag_toWord c, (wordPayload_toWord c).trans (payload_narrow c)⟩
  · intro c fits
    rw [wordPayload_toWord, narrow_eq_self_iff.mpr fits]
  · intro c d hc hd ne same
    rw [← reads] at hc hd
    rw [same, hd, Option.some.injEq] at hc
    exact ne hc.symm
  · intro n
    exact ⟨ofWord?_toWord _, ofWord?_toWord _, ofWord?_toWord _, ofWord?_toWord _,
      fun _ _ => ofWord?_toWord _⟩

/-- The last list pair and the last signature that fit and the lowest integer have words of their
own, from which they are read back; a signature beyond loses a bit of its symbol. -/
theorem toWord_faithful_edges :
    let pair := lst (2 ^ 61 - 1)
    let signature := sig ⟨⟨2 ^ 53 - 1⟩, 255, by decide⟩
    let lowest := int (-2147483648)
    pair.Fits ∧ signature.Fits ∧ lowest.Fits ∧
      pair.toWord ≠ signature.toWord ∧ ofWord? pair.toWord = some pair ∧
      ofWord? signature.toWord = some signature ∧ ofWord? lowest.toWord = some lowest ∧
      wordPayload signature.toWord = 2 ^ 61 - 1 ∧
      ofWord? (sig ⟨⟨2 ^ 53 + 5⟩, 255, by decide⟩).toWord = some (sig ⟨⟨5⟩, 255, by decide⟩) := by
  obtain ⟨_, payload, reads, apart, lost, _⟩ := toWord_faithful
  intro pair signature lowest
  have hp : pair.Fits := by decide
  have hs : signature.Fits := by decide
  exact ⟨hp, hs, trivial, apart _ _ hp hs nofun, (reads _).mpr hp, (reads _).mpr hs,
    (reads _).mpr trivial, payload _ hs, (lost _).2.2.2.2 _ _⟩

end TermHeap.Cell
