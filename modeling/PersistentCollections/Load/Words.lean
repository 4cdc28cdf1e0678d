import PersistentCollections.Load.Factors

/-! The number of buckets as a machine finds it, in words of 64 bits. A quotient that is too
great for a word is cut off at the greatest one, but the step after it is not: it goes on at
zero. Factors that are small enough bring that about for a single item. A count that is a word
may still be too great for memory, and then there is no table with so many buckets. -/

namespace PersistentCollections

/-- A table with buckets for so many items, which memory has no room for. -/
structure CapacityError where
  items : Nat

def CapacityError.message (_ : CapacityError) : String := "capacity overflow"

namespace LoadFactors

/-- The count that the middle factor asks for; after the greatest word comes zero. -/
def targetWord (c : LoadFactors) (items : Nat) : UInt64 :=
  (items.toFloat / c.initial).toUInt64 + 1

/-- Whether that count is one that no word can be. -/
def overflows (c : LoadFactors) (items : Nat) : Bool :=
  UInt64.size ≤ LoadNumber.target c.upper c.lower items

def fewestWord (c : LoadFactors) (items : Nat) : UInt64 :=
  max (items.toFloat / c.upper).ceil.toUInt64 1

def mostWord (c : LoadFactors) (items : Nat) : UInt64 :=
  max (items.toFloat / c.lower).toUInt64 1

def countWord (c : LoadFactors) (items : Nat) : UInt64 :=
  max (c.fewestWord items)
    (min (c.targetWord items) (max (c.mostWord items) (c.fewestWord items)))

/-- Whether a table of that many buckets has room in memory: a bucket takes 24 bytes, and there
are fewer bytes than half of the words. -/
def fits (c : LoadFactors) (items : Nat) : Bool := (c.countWord items).toNat * 24 < UInt64.size / 2

end LoadFactors

end PersistentCollections
