import TermHeap.Cell.Basic

/-!
# Cells as machine words

A cell fits one 64-bit word: the kind of the cell in the low three bits and its payload above
them. The payload of a signature is its arity in eight bits with the symbol above. Payload bits
that do not fit are lost, so a word reads back as the cell's *narrowed* form.
-/

namespace TermHeap

/-- The number of 64-bit words. -/
def wordSpan : Nat := 0x10000000000000000

/-- The number of payloads of a word, which has 61 bits for it. -/
def payloadSpan : Nat := 0x2000000000000000

/-- The number of symbols that a signature can hold in its 53 bits. -/
def signatureSpan : Nat := 0x20000000000000

/-- The address `n` cells after `a`, in 64-bit arithmetic. -/
def Addr.after (a : Addr) (n : Nat) : Addr := (a + n) % wordSpan

namespace Cell

/-- The kind of a cell, as written in the low three bits of its word. -/
def tag : Cell → UInt64
  | .ref _ => 0
  | .rcd _ => 1
  | .int _ => 2
  | .sym _ => 3
  | .sig _ => 4
  | .lst _ => 5
  | .nil => 6

/-- The word of a kind and a payload. -/
def packed (kind payload : UInt64) : UInt64 := kind ||| payload <<< 3

/-- The word of a cell. -/
def toWord (c : Cell) : UInt64 :=
  match c with
  | .ref target => packed c.tag (UInt64.ofNat target)
  | .rcd target => packed c.tag (UInt64.ofNat target)
  | .int value => packed c.tag value.toUInt32.toUInt64
  | .sym name => packed c.tag (UInt64.ofNat name.index)
  | .sig f => c.tag ||| UInt64.ofNat f.arity <<< 3 ||| UInt64.ofNat f.name.index <<< 11
  | .lst car => packed c.tag (UInt64.ofNat car)
  | .nil => c.tag

/-- The kind of a word. -/
def wordTag (w : UInt64) : UInt64 := w &&& 7

/-- The payload of a word. -/
def wordPayload (w : UInt64) : Nat := (w >>> 3).toNat

/-- The integer in the low 32 bits of the payload of a word. -/
def wordInt (w : UInt64) : Int32 := (w >>> 3).toUInt32.toInt32

/-- Eight bits hold no arity beyond the limit. -/
theorem wordArity_le (w : UInt64) : (w >>> 3 &&& 0xff).toNat ≤ maxArity := by
  rw [UInt64.toNat_and]
  exact Nat.and_le_right

/-- The arity in the low eight bits of the payload of a word, with the symbol above it. -/
def wordSignature (w : UInt64) : Signature :=
  ⟨⟨(w >>> 11).toNat⟩, (w >>> 3 &&& 0xff).toNat, wordArity_le w⟩

/-- The cell that a word stands for. Kind 7 is unused. -/
def ofWord? (w : UInt64) : Option Cell :=
  match wordTag w with
  | 0 => some (.ref (wordPayload w))
  | 1 => some (.rcd (wordPayload w))
  | 2 => some (.int (wordInt w))
  | 3 => some (.sym ⟨wordPayload w⟩)
  | 4 => some (.sig (wordSignature w))
  | 5 => some (.lst (wordPayload w))
  | 6 => some .nil
  | _ => none

/-- The cell without the payload bits that its word has no room for. -/
def narrow : Cell → Cell
  | .ref target => .ref (target % payloadSpan)
  | .rcd target => .rcd (target % payloadSpan)
  | .int value => .int value
  | .sym name => .sym ⟨name.index % payloadSpan⟩
  | .sig f => .sig ⟨⟨f.name.index % signatureSpan⟩, f.arity, f.arity_le⟩
  | .lst car => .lst (car % payloadSpan)
  | .nil => .nil

end Cell
end TermHeap
