import TermHeap.Growing
import TermHeap.HashTable.Entry
import TermHeap.HashTable.Hash

/-!
# Hash tables in one array

The storage of a hash table is one growing array, in which everything is known by its relative
index. The buckets are a row of neighbouring slots, each with the index of the first entry of its
chain, and every entry holds the index of the next. Entries are never freed: when a table is
rebuilt, new buckets and new entries are allocated while the old chains are walked, and these stay
behind.

The array could hold anything, so the operations check what they read. Bounds on the walks along
chains are taken from the number of entries, which no chain exceeds.
-/

namespace TermHeap

/-- A slot of the storage. An entry takes several, of which the first stands for it. -/
inductive Slot (κ ν : Type) where
  | bucket (first : Nat)
  | entry (e : Entry κ ν)
  | inner
deriving Repr

/-- The number of slots that an entry takes after its first. -/
class EntryLayout (κ ν : Type) where
  innerSlots : Nat

/-- Two integers share a slot. -/
instance : EntryLayout Int32 Int32 := ⟨1⟩

instance : EntryLayout Nat Symbol := ⟨2⟩

instance : EntryLayout Symbol Nat := ⟨2⟩

/-- A hash table that lies in one array. -/
structure LinkedTable (κ ν : Type) where
  slots : Growing (Slot κ ν)
  firstBucket : Nat
  numBuckets : Nat
  numEntries : Nat
  numCollisions : Nat
  numRehash : Nat
deriving Repr

namespace LinkedTable

/-- What makes an operation on a table fail. -/
inductive Misuse where
  /-- A table without buckets has no bucket for a key. -/
  | noBuckets
  /-- There is no bucket with this number. -/
  | noBucket (i : Nat)
  /-- There is no entry at this index. -/
  | noEntry (a : Nat)
  /-- A chain has more entries than the table. -/
  | endless
deriving DecidableEq, Repr

/-! ### Slots -/

section
variable {κ ν : Type}

/-- Allocate a number of empty buckets, which are those of the table from then on. -/
def allocateBuckets (t : LinkedTable κ ν) (n : Nat) : LinkedTable κ ν :=
  match t with
  | ⟨slots, _, _, entries, collisions, rehashes⟩ =>
    ⟨slots.append (Array.replicate n (.bucket 0)), slots.top, n, entries, collisions, rehashes⟩

/-- The empty table for an expected number of buckets, rounded up to an odd number. -/
def empty (capacity : Nat) : LinkedTable κ ν :=
  allocateBuckets ⟨.empty (capacity * 4 + 16), 0, 0, 0, 0, 0⟩ (capacity ||| 1)

/-- Overwrite a slot. -/
def setSlot (t : LinkedTable κ ν) (a : Nat) (s : Slot κ ν) : LinkedTable κ ν :=
  match t with
  | ⟨slots, first, buckets, entries, collisions, rehashes⟩ =>
    ⟨slots.set a s, first, buckets, entries, collisions, rehashes⟩

/-- The index of the first entry of a bucket, or 0. -/
def bucketAt (t : LinkedTable κ ν) (i : Nat) : Except Misuse Nat :=
  match t.slots.get? (t.firstBucket + i) with
  | some (.bucket first) => .ok first
  | _ => .error (.noBucket i)

/-- Let a bucket begin with an entry. -/
def setBucket (t : LinkedTable κ ν) (i first : Nat) : LinkedTable κ ν :=
  t.setSlot (t.firstBucket + i) (.bucket first)

/-- The entry at an index. -/
def entryAt (t : LinkedTable κ ν) (a : Nat) : Except Misuse (Entry κ ν) :=
  match t.slots.get? a with
  | some (.entry e) => .ok e
  | _ => .error (.noEntry a)

/-- Let another entry follow the one at an index. -/
def setRest (t : LinkedTable κ ν) (a rest : Nat) : Except Misuse (LinkedTable κ ν) := do
  let e ← t.entryAt a
  return t.setSlot a (.entry (e.link rest))

/-- Change the value of the entry at an index. -/
def setValue (t : LinkedTable κ ν) (a : Nat) (v : ν) : Except Misuse (LinkedTable κ ν) := do
  let e ← t.entryAt a
  return t.setSlot a (.entry (e.modify fun _ => v))

/-- Allocate the entry of a key that has no value yet. -/
def newEntry [Inhabited ν] [EntryLayout κ ν] (t : LinkedTable κ ν) (k : κ) :
    Nat × LinkedTable κ ν :=
  match t with
  | ⟨slots, first, buckets, entries, collisions, rehashes⟩ =>
    let block := #[.entry (.fresh k)] ++ Array.replicate (EntryLayout.innerSlots κ ν) .inner
    (slots.top, ⟨slots.append block, first, buckets, entries, collisions, rehashes⟩)

/-- Count an entry, and a collision if it was added to a chain. -/
def countEntry (t : LinkedTable κ ν) (collides : Bool) : LinkedTable κ ν :=
  match t with
  | ⟨slots, first, buckets, entries, collisions, rehashes⟩ =>
    ⟨slots, first, buckets, entries + 1, if collides then collisions + 1 else collisions, rehashes⟩

end

/-! ### Keys -/

variable {κ ν : Type} [DecidableEq κ] [HashKey κ] [Inhabited ν] [EntryLayout κ ν]

/-- The bucket of a key. -/
def bucketOf (t : LinkedTable κ ν) (k : κ) : Except Misuse Nat :=
  if t.numBuckets = 0 then .error .noBuckets
  else .ok ((HashKey.hash k).toNat % t.numBuckets)

/-- Walk along a chain of at most `fuel` entries from the one at `a`, after the one at `last`: the
index of the entry of the key, or 0, and the index of the entry before it. -/
def search (t : LinkedTable κ ν) (k : κ) (fuel a last : Nat) : Except Misuse (Nat × Nat) :=
  if a = 0 then .ok (0, last)
  else
    match fuel with
    | 0 => .error .endless
    | fuel + 1 =>
      match t.entryAt a with
      | .error e => .error e
      | .ok e => if e.key = k then .ok (a, last) else t.search k fuel e.rest a

/-- The index of the entry of a key, or 0, with the bucket of the key and the last entry before. -/
def find (t : LinkedTable κ ν) (k : κ) : Except Misuse (Nat × Nat × Nat) := do
  let i ← t.bucketOf k
  let first ← t.bucketAt i
  let (a, last) ← t.search k t.numEntries first 0
  return (i, a, last)

/-- The index of the entry of a key, which is added at the end of its chain if there is none. -/
def entryFor (t : LinkedTable κ ν) (k : κ) : Except Misuse (Nat × LinkedTable κ ν) := do
  let (i, a, last) ← t.find k
  if a = 0 then
    let (new, t) := t.newEntry k
    if last = 0 then return (new, (t.setBucket i new).countEntry false)
    else
      let t ← t.setRest last new
      return (new, t.countEntry true)
  else return (a, t)

/-- Store a value in the buckets that there are. -/
def store (t : LinkedTable κ ν) (k : κ) (v : ν) : Except Misuse (LinkedTable κ ν) := do
  let (a, t) ← t.entryFor k
  t.setValue a v

/-- The value stored for a key. -/
def get? (t : LinkedTable κ ν) (k : κ) : Except Misuse (Option ν) := do
  let (_, a, _) ← t.find k
  if a = 0 then return none
  else
    let e ← t.entryAt a
    return some e.value

/-- Whether a key is stored. -/
def contains (t : LinkedTable κ ν) (k : κ) : Except Misuse Bool := do
  return (← t.get? k).isSome

/-! ### Rebuilding -/

/-- Store once more what is stored in a chain of at most `fuel` entries from the one at `a`. -/
def storeChain (t : LinkedTable κ ν) (fuel a : Nat) : Except Misuse (LinkedTable κ ν) :=
  if a = 0 then .ok t
  else
    match fuel with
    | 0 => .error .endless
    | fuel + 1 =>
      match t.entryAt a with
      | .error e => .error e
      | .ok e =>
        match t.store e.key e.value with
        | .error e => .error e
        | .ok t => t.storeChain fuel e.rest

/-- Store once more what is stored in the chains of `n` buckets, of which the first is in the slot
`b`. -/
def storeChains (t : LinkedTable κ ν) (fuel b n : Nat) : Except Misuse (LinkedTable κ ν) :=
  match n with
  | 0 => .ok t
  | n + 1 =>
    match t.slots.get? b with
    | some (.bucket first) =>
      match t.storeChain fuel first with
      | .error e => .error e
      | .ok t => t.storeChains fuel (b + 1) n
    | _ => .error (.noBucket b)

/-- Distribute the entries over `n` new buckets. -/
def rehash (t : LinkedTable κ ν) (n : Nat) : Except Misuse (LinkedTable κ ν) :=
  match t with
  | ⟨slots, first, buckets, entries, collisions, rehashes⟩ =>
    (allocateBuckets ⟨slots, first, buckets, 0, collisions, rehashes + 1⟩ n).storeChains entries
      first buckets

/-- Rebuild a table that has become too full. -/
def grow (t : LinkedTable κ ν) : Except Misuse (LinkedTable κ ν) :=
  if t.numEntries > t.numBuckets / 2 then t.rehash (t.numBuckets * 2 + 1) else .ok t

/-- Store a value, and tell whether the number of entries changed. -/
def put (t : LinkedTable κ ν) (k : κ) (v : ν) : Except Misuse (Bool × LinkedTable κ ν) := do
  let before := t.numEntries
  let t ← t.store k v
  let t ← t.grow
  return (before != t.numEntries, t)

/-! ### Iterating -/

/-- A place among the entries: the number of a bucket and the index of an entry, 0 at the end. -/
structure Iterator where
  bucket : Nat
  current : Nat
deriving DecidableEq, Repr

/-- The place after the last entry. -/
def Iterator.stop : Iterator := ⟨0, 0⟩

/-- Whether two places are those of the same entry, or both after the last one. -/
def Iterator.same (it it' : Iterator) : Bool := it.current == it'.current

/-- Go on to the next bucket that is not empty, if there is no entry here. There are `left` buckets
to come. -/
def skipEmpty (t : LinkedTable κ ν) (left : Nat) (it : Iterator) : Except Misuse Iterator :=
  match left with
  | 0 => .ok it
  | left + 1 =>
    if it.current = 0 then
      match t.bucketAt (it.bucket + 1) with
      | .error e => .error e
      | .ok first => t.skipEmpty left ⟨it.bucket + 1, first⟩
    else .ok it

/-- The place of the first entry. -/
def begin (t : LinkedTable κ ν) : Except Misuse Iterator := do
  let first ← t.bucketAt 0
  t.skipEmpty (t.numBuckets - 1) ⟨0, first⟩

/-- The place of the next entry. There is none after the end. -/
def next (t : LinkedTable κ ν) (it : Iterator) : Except Misuse Iterator :=
  if it.current = 0 then .ok it
  else do
    let e ← t.entryAt it.current
    t.skipEmpty (t.numBuckets - (it.bucket + 1)) { it with current := e.rest }

/-- The entries from a place on, of which there are at most `fuel`. -/
def entriesFrom (t : LinkedTable κ ν) (fuel : Nat) (it : Iterator) :
    Except Misuse (List (κ × ν)) :=
  if it.current = 0 then .ok []
  else
    match fuel with
    | 0 => .error .endless
    | fuel + 1 =>
      match t.entryAt it.current with
      | .error e => .error e
      | .ok e =>
        match t.next it with
        | .error e => .error e
        | .ok it => (t.entriesFrom fuel it).map ((e.key, e.value) :: ·)

/-- All entries, bucket by bucket. -/
def entries (t : LinkedTable κ ν) : Except Misuse (List (κ × ν)) := do
  t.entriesFrom t.numEntries (← t.begin)

/-- The entries as text, in their order. -/
def render (key : κ → String) (value : ν → String) (t : LinkedTable κ ν) :
    Except Misuse String := do
  let entries ← t.entries
  return "[" ++ String.intercalate ", " (entries.map fun e => key e.1 ++ ":" ++ value e.2) ++ "]"

end LinkedTable
end TermHeap
