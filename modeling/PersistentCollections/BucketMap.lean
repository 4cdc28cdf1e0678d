import PersistentCollections.Bucket
import PersistentCollections.Load.Policy
import PersistentCollections.TrieVector

/-! A persistent hash map: a vector of buckets. A key belongs in the bucket of its
hash modulo their number. An update replaces one bucket and shares the others with
the map it came from; when the load policy asks for it, all items are spread anew.

Items are listed bucket by bucket and within a bucket in the order in which their
keys first came. Keys need an equality that respects the hash; equal keys may still
differ, and the one that came last is kept. -/

namespace PersistentCollections

structure BucketMap (π κ ν : Type) where
  buckets : TrieVector (Option (Bucket κ ν))
  length : Nat
  hash : κ → UInt64
  policy : π

/-- Buckets while items are spread over them. -/
structure Spread (κ ν : Type) where
  buckets : Array (Bucket κ ν)
  length : Nat

namespace Spread

def empty (count : Nat) : Spread κ ν := ⟨.replicate count [], 0⟩

def add [BEq κ] (hash : κ → UInt64) (s : Spread κ ν) (item : κ × ν) : Spread κ ν :=
  let i := (hash item.1).toNat % s.buckets.size
  let known := Bucket.contains (s.buckets[i]?.getD []) item.1
  ⟨s.buckets.modify i (Bucket.put item), if known then s.length else s.length + 1⟩

def addAll [BEq κ] (hash : κ → UInt64) (s : Spread κ ν) (items : List (κ × ν)) : Spread κ ν :=
  items.foldl (add hash) s

end Spread

namespace BucketMap

variable {π κ ν : Type}

def isEmpty (m : BucketMap π κ ν) : Bool := m.length == 0

def toList (m : BucketMap π κ ν) : List (κ × ν) := m.buckets.toList.flatMap Bucket.items

def keys (m : BucketMap π κ ν) : List κ := m.toList.map Prod.fst

def values (m : BucketMap π κ ν) : List ν := m.toList.map Prod.snd

/-- The number of the bucket that a key belongs in. -/
def place (m : BucketMap π κ ν) (k : κ) : Nat := (m.hash k).toNat % m.buckets.length

def bucket (m : BucketMap π κ ν) (i : Nat) : Bucket κ ν := Bucket.items (m.buckets.get? i).join

def empty (hash : κ → UInt64) (policy : π) : BucketMap π κ ν :=
  ⟨(TrieVector.empty.push none).value, 0, hash, policy⟩

section

variable [BEq κ]

/-- The stored key that equals `k`, with its value. -/
def find? (m : BucketMap π κ ν) (k : κ) : Option (κ × ν) := (m.bucket (m.place k)).find? k

def get? (m : BucketMap π κ ν) (k : κ) : Option ν := (m.find? k).map Prod.snd

def contains (m : BucketMap π κ ν) (k : κ) : Bool := (m.find? k).isSome

/-- Spreads items over as many buckets as the policy gives for `count`. -/
def spread [LoadPolicy π] (hash : κ → UInt64) (policy : π) (count : Nat)
    (items : List (κ × ν)) : Logged (BucketMap π κ ν) :=
  let s := (Spread.empty (bucketCount policy count)).addAll hash items
  (TrieVector.ofList (s.buckets.toList.map Bucket.stored)).map
    fun buckets => ⟨buckets, s.length, hash, policy⟩

/-- A map of the given items, sized by their number. Of several items with equal
keys the last one counts. -/
def ofList [LoadPolicy π] (hash : κ → UInt64) (policy : π) (items : List (κ × ν)) :
    Logged (BucketMap π κ ν) :=
  spread hash policy items.length items

/-- Whether `k` is new and its item would be one too many for the buckets. -/
def growsOn [LoadPolicy π] (m : BucketMap π κ ν) (k : κ) : Bool :=
  !m.contains k && needsGrow m.policy (m.length + 1) m.buckets.length

def putInPlace (m : BucketMap π κ ν) (k : κ) (v : ν) : BucketMap π κ ν :=
  let i := m.place k
  let b := m.bucket i
  { m with
    buckets := m.buckets.replace i (some (Bucket.put (k, v) b))
    length := if Bucket.contains b k then m.length else m.length + 1 }

def insert [LoadPolicy π] (m : BucketMap π κ ν) (k : κ) (v : ν) : Logged (BucketMap π κ ν) :=
  if m.growsOn k then
    (spread m.hash m.policy (m.length + 1) (m.toList ++ [(k, v)])).bind fun larger =>
      ⟨larger, [.mapGrew larger.length m.buckets.length larger.buckets.length]⟩
  else
    .pure (m.putInPlace k v)

def eraseInPlace (m : BucketMap π κ ν) (k : κ) : BucketMap π κ ν :=
  let i := m.place k
  let b := m.bucket i
  let left := Bucket.erase b k
  { m with
    buckets := m.buckets.replace i (Bucket.stored left)
    length := m.length - (b.length - left.length) }

def sparse [LoadPolicy π] (m : BucketMap π κ ν) : Bool :=
  needsShrink m.policy m.length m.buckets.length

def erase [LoadPolicy π] (m : BucketMap π κ ν) (k : κ) : Logged (BucketMap π κ ν) :=
  if m.contains k then
    let left := m.eraseInPlace k
    if left.sparse then
      (spread left.hash left.policy left.length left.toList).bind fun smaller =>
        ⟨smaller, [.mapShrank smaller.length left.buckets.length smaller.buckets.length]⟩
    else
      .pure left
  else
    .pure m

/-- The number of items that an insertion spreads anew, if it does. -/
def spreadOnInsert? [LoadPolicy π] (m : BucketMap π κ ν) (k : κ) : Option Nat :=
  if m.growsOn k then some (m.length + 1) else none

def spreadOnErase? [LoadPolicy π] (m : BucketMap π κ ν) (k : κ) : Option Nat :=
  if m.contains k then
    let left := m.eraseInPlace k
    if left.sparse then some left.length else none
  else
    none

def insertAll [LoadPolicy π] (m : BucketMap π κ ν) (items : List (κ × ν)) :
    Logged (BucketMap π κ ν) :=
  .fold (fun m item => m.insert item.1 item.2) m items

def eraseAll [LoadPolicy π] (m : BucketMap π κ ν) (keys : List κ) : Logged (BucketMap π κ ν) :=
  .fold erase m keys

def equal [BEq ν] (m w : BucketMap π κ ν) : Bool :=
  m.length == w.length && m.toList.all fun (k, v) =>
    match w.get? k with
    | some u => u == v
    | none => false

/-- Whether the buckets are in order and as many as the policy wants. -/
def check [LoadPolicy π] (m : BucketMap π κ ν) : Bool :=
  m.buckets.check && !m.buckets.isEmpty &&
  m.buckets.toList.zipIdx.all (fun (b, i) =>
    match b with
    | none => true
    | some b => !b.isEmpty && b.all (fun item => m.place item.1 == i) && Bucket.distinct b) &&
  m.toList.length == m.length &&
  !needsGrow m.policy m.length m.buckets.length &&
  !m.sparse

end

end BucketMap

end PersistentCollections
