import PersistentCollections.BucketMap.Cursor

/-! A persistent hash set: a map to nothing. The second operand of an operation on
two sets may have another hash and another policy; the result has those of the
first. Of two equal elements a union keeps the one of the second operand and an
intersection the one of the first. -/

namespace PersistentCollections

structure BucketSet (π κ : Type) where
  map : BucketMap π κ Unit

namespace BucketSet

variable {π κ : Type}

def length (s : BucketSet π κ) : Nat := s.map.length

def isEmpty (s : BucketSet π κ) : Bool := s.map.isEmpty

def toList (s : BucketSet π κ) : List κ := s.map.keys

def empty (hash : κ → UInt64) (policy : π) : BucketSet π κ := ⟨.empty hash policy⟩

def cursor (s : BucketSet π κ) : KeyCursor (Cursor (Option (Bucket κ Unit))) κ Unit :=
  ⟨s.map.cursor⟩

def leafCursor (s : BucketSet π κ) : KeyCursor (LeafCursor (Option (Bucket κ Unit))) κ Unit :=
  ⟨s.map.leafCursor⟩

variable [BEq κ]

def contains (s : BucketSet π κ) (a : κ) : Bool := s.map.contains a

def ofList [LoadPolicy π] (hash : κ → UInt64) (policy : π) (items : List κ) :
    Logged (BucketSet π κ) :=
  (BucketMap.ofList hash policy (items.map fun a => (a, ()))).map mk

def insert [LoadPolicy π] (s : BucketSet π κ) (a : κ) : Logged (BucketSet π κ) :=
  (s.map.insert a ()).map mk

def erase [LoadPolicy π] (s : BucketSet π κ) (a : κ) : Logged (BucketSet π κ) :=
  (s.map.erase a).map mk

def insertAll [LoadPolicy π] (s : BucketSet π κ) (items : List κ) : Logged (BucketSet π κ) :=
  .fold insert s items

def eraseAll [LoadPolicy π] (s : BucketSet π κ) (items : List κ) : Logged (BucketSet π κ) :=
  .fold erase s items

def without (s w : BucketSet π κ) : List κ := s.toList.filter fun a => !w.contains a

/-- A set of other elements with the hash and the policy of `s`. -/
def rebuild [LoadPolicy π] (s : BucketSet π κ) (items : List κ) : Logged (BucketSet π κ) :=
  ofList s.map.hash s.map.policy items

def union [LoadPolicy π] (s w : BucketSet π κ) : Logged (BucketSet π κ) :=
  s.insertAll w.toList

def intersection [LoadPolicy π] (s w : BucketSet π κ) : Logged (BucketSet π κ) :=
  s.rebuild (s.toList.filter w.contains)

def difference [LoadPolicy π] (s w : BucketSet π κ) : Logged (BucketSet π κ) :=
  s.rebuild (s.without w)

def symmetricDifference [LoadPolicy π] (s w : BucketSet π κ) : Logged (BucketSet π κ) :=
  s.rebuild (s.without w ++ w.without s)

def isSubset (s w : BucketSet π κ) : Bool :=
  s.length ≤ w.length && s.toList.all w.contains

def isSuperset (s w : BucketSet π κ) : Bool := w.isSubset s

def isDisjoint (s w : BucketSet π κ) : Bool := s.toList.all fun a => !w.contains a

def equal (s w : BucketSet π κ) : Bool := s.length == w.length && s.isSubset w

def check [LoadPolicy π] (s : BucketSet π κ) : Bool := s.map.check

end BucketSet

end PersistentCollections
