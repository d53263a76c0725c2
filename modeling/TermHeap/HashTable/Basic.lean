import TermHeap.HashTable.Hash

/-!
# Hash tables

Separate chaining: a key belongs to the bucket given by its hash modulo the number of buckets,
and a bucket lists its entries in order of insertion. The table counts its entries, how often an
entry was added to a bucket that was not empty, and how often it was rebuilt. It grows to
`2 * n + 1` buckets as soon as more than half of `n` buckets' worth of entries is stored.
-/

namespace TermHeap

/-- A finite map from `κ` to `ν`. -/
structure HashTable (κ ν : Type) where
  buckets : Array (List (κ × ν))
  numEntries : Nat
  numCollisions : Nat
  numRehash : Nat
deriving Repr

namespace HashTable

variable {κ ν : Type} [DecidableEq κ] [HashKey κ]

/-- `n` empty buckets, and at least one. -/
def emptyBuckets (n : Nat) : Array (List (κ × ν)) := Array.replicate (max n 1) []

/-- The empty table for an expected number of buckets, rounded up to an odd number. -/
def empty (capacity : Nat) : HashTable κ ν := ⟨emptyBuckets (capacity ||| 1), 0, 0, 0⟩

instance : Inhabited (HashTable κ ν) := ⟨empty 17⟩

/-- The number of buckets. -/
def numBuckets (t : HashTable κ ν) : Nat := t.buckets.size

/-- The bucket of a key. -/
def bucketOf (t : HashTable κ ν) (k : κ) : Nat := (HashKey.hash k).toNat % t.numBuckets

/-- The entries of a bucket. -/
def chain (t : HashTable κ ν) (i : Nat) : List (κ × ν) := t.buckets.getD i []

/-- The value stored for a key. -/
def get? (t : HashTable κ ν) (k : κ) : Option ν :=
  ((t.chain (t.bucketOf k)).find? (·.1 = k)).map (·.2)

/-- Whether a key is stored. -/
def contains (t : HashTable κ ν) (k : κ) : Bool := (t.get? k).isSome

/-- The chain with the value of a key replaced, or with the key added at its end. -/
def update (k : κ) (v : ν) (entries : List (κ × ν)) : List (κ × ν) :=
  if entries.any (·.1 = k) then entries.map fun e => if e.1 = k then (k, v) else e
  else entries ++ [(k, v)]

/-- Store a value in the buckets that there are. -/
def insert (t : HashTable κ ν) (k : κ) (v : ν) : HashTable κ ν :=
  let i := t.bucketOf k
  let old := t.chain i
  let fresh := !old.any (·.1 = k)
  let collides := fresh && !old.isEmpty
  match t with
  | ⟨buckets, numEntries, numCollisions, numRehash⟩ =>
    { buckets := buckets.modify i (update k v)
      numEntries := if fresh then numEntries + 1 else numEntries
      numCollisions := if collides then numCollisions + 1 else numCollisions
      numRehash }

/-- The entries, bucket by bucket. -/
def entries (t : HashTable κ ν) : List (κ × ν) := t.buckets.toList.flatten

/-- Distribute the entries over `n` buckets. -/
def rehash (t : HashTable κ ν) (n : Nat) : HashTable κ ν :=
  t.entries.foldl (fun t e => t.insert e.1 e.2)
    { buckets := emptyBuckets n
      numEntries := 0
      numCollisions := t.numCollisions
      numRehash := t.numRehash + 1 }

/-- Store a value, and grow if the table has become too full. -/
def put (t : HashTable κ ν) (k : κ) (v : ν) : HashTable κ ν :=
  let t := t.insert k v
  if t.numEntries > t.numBuckets / 2 then t.rehash (t.numBuckets * 2 + 1) else t

/-- Store a value, and tell whether the number of entries changed. -/
def putNew (t : HashTable κ ν) (k : κ) (v : ν) : Bool × HashTable κ ν :=
  let before := t.numEntries
  let t := t.put k v
  (before != t.numEntries, t)

/-- The entries as text, in their order. -/
def render (key : κ → String) (value : ν → String) (t : HashTable κ ν) : String :=
  "[" ++ String.intercalate ", " (t.entries.map fun e => key e.1 ++ ":" ++ value e.2) ++ "]"

end HashTable
end TermHeap
