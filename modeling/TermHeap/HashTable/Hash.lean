import TermHeap.Cell.Basic

/-!
# Hashing of keys

Multiplicative hashing: the two halves of a 64-bit word are folded, the result is multiplied
by the golden ratio of 64 bits and the upper half of the product is kept.
-/

namespace TermHeap

/-- 2^64 divided by the golden ratio, rounded to an odd number. -/
def goldenWord : UInt64 := 0x9e3779b97f4a7c15

/-- The hash of a 64-bit word. -/
def hashWord (w : UInt64) : UInt32 :=
  (((w ^^^ (w >>> 32)) * goldenWord) >>> 32).toUInt32

/-- The types that can be keys of a hash table. -/
class HashKey (κ : Type) where
  hash : κ → UInt32

/-- An address or size is hashed as a 64-bit word. -/
instance : HashKey Nat := ⟨fun n => hashWord (UInt64.ofNat n)⟩

/-- A symbol is hashed by its index. -/
instance : HashKey Symbol := ⟨fun s => hashWord (UInt64.ofNat s.index)⟩

/-- An integer is hashed by its 32 bits, without extending its sign. -/
instance : HashKey Int32 := ⟨fun k => hashWord k.toUInt32.toUInt64⟩

end TermHeap
