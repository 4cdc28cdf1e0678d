import PersistentCollections.BucketSet
import PersistentCollections.Version.Map

/-! Versions of sets: those of the maps under them. A union adds to the first
operand; the other operations on two sets make a set of their own.

The operations ending in `Bounded` are refused where those of the maps are. -/

namespace PersistentCollections

abbrev SetVersion (π κ : Type) := Version (BucketSet π κ)

namespace SetVersion

variable {π κ : Type}

def toMap (x : SetVersion π κ) : MapVersion π κ Unit := x.map BucketSet.map

def ofMap (x : MapVersion π κ Unit) : SetVersion π κ := x.map BucketSet.mk

def empty (hash : κ → UInt64) (policy : π) : Recording (SetVersion π κ) := do
  return ofMap (← MapVersion.empty hash policy)

def same (x y : SetVersion π κ) : Bool := MapVersion.same x.toMap y.toMap

/-- A set that was made at once, not from an earlier version. -/
def made (r : Logged (BucketSet π κ)) : Recording (SetVersion π κ) := do
  Version.fresh (← record r)

variable [BEq κ] [LoadPolicy π]

def ofList (hash : κ → UInt64) (policy : π) (items : List κ) : Recording (SetVersion π κ) :=
  made (BucketSet.ofList hash policy items)

def insert (x : SetVersion π κ) (a : κ) : Recording (SetVersion π κ) := do
  return ofMap (← x.toMap.insert a ())

def erase (x : SetVersion π κ) (a : κ) : Recording (SetVersion π κ) := do
  return ofMap (← x.toMap.erase a)

def insertAll (x : SetVersion π κ) (items : List κ) : Recording (SetVersion π κ) :=
  items.foldlM insert x

def eraseAll (x : SetVersion π κ) (items : List κ) : Recording (SetVersion π κ) :=
  items.foldlM erase x

def union (x : SetVersion π κ) (w : BucketSet π κ) : Recording (SetVersion π κ) :=
  x.insertAll w.toList

def intersection (x : SetVersion π κ) (w : BucketSet π κ) : Recording (SetVersion π κ) :=
  made (x.value.intersection w)

def difference (x : SetVersion π κ) (w : BucketSet π κ) : Recording (SetVersion π κ) :=
  made (x.value.difference w)

def symmetricDifference (x : SetVersion π κ) (w : BucketSet π κ) :
    Recording (SetVersion π κ) :=
  made (x.value.symmetricDifference w)

def ofListBounded (hash : κ → UInt64) (c : LoadFactors) (items : List κ) :
    Bounded (SetVersion LoadFactors κ) :=
  bounded c (some items.length) (ofList hash c items)

def insertBounded (x : SetVersion LoadFactors κ) (a : κ) : Bounded (SetVersion LoadFactors κ) := do
  return ofMap (← x.toMap.insertBounded a ())

def eraseBounded (x : SetVersion LoadFactors κ) (a : κ) : Bounded (SetVersion LoadFactors κ) := do
  return ofMap (← x.toMap.eraseBounded a)

def insertAllBounded (x : SetVersion LoadFactors κ) (items : List κ) :
    Bounded (SetVersion LoadFactors κ) :=
  items.foldlM insertBounded x

def eraseAllBounded (x : SetVersion LoadFactors κ) (items : List κ) :
    Bounded (SetVersion LoadFactors κ) :=
  items.foldlM eraseBounded x

def rebuild (x : SetVersion π κ) (items : List κ) : Recording (SetVersion π κ) :=
  made (x.value.rebuild items)

def rebuildBounded (x : SetVersion LoadFactors κ) (items : List κ) :
    Bounded (SetVersion LoadFactors κ) :=
  bounded x.value.map.policy (some items.length) (x.rebuild items)

def unionBounded (x : SetVersion LoadFactors κ) (w : BucketSet LoadFactors κ) :
    Bounded (SetVersion LoadFactors κ) :=
  x.insertAllBounded w.toList

def intersectionBounded (x : SetVersion LoadFactors κ) (w : BucketSet LoadFactors κ) :
    Bounded (SetVersion LoadFactors κ) :=
  x.rebuildBounded (x.value.toList.filter w.contains)

def differenceBounded (x : SetVersion LoadFactors κ) (w : BucketSet LoadFactors κ) :
    Bounded (SetVersion LoadFactors κ) :=
  x.rebuildBounded (x.value.without w)

def symmetricDifferenceBounded (x : SetVersion LoadFactors κ) (w : BucketSet LoadFactors κ) :
    Bounded (SetVersion LoadFactors κ) :=
  x.rebuildBounded (x.value.without w ++ w.without x.value)

end SetVersion

end PersistentCollections
