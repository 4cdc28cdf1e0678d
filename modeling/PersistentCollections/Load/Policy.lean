/-! When a map changes its number of buckets, and to how many. A policy decides on
the numbers of items and of buckets alone, never on the keys. -/

namespace PersistentCollections

class LoadPolicy (π : Type) where
  /-- Too many items for the buckets. -/
  needsGrow : π → (items buckets : Nat) → Bool
  /-- Too few items for the buckets. -/
  needsShrink : π → (items buckets : Nat) → Bool
  /-- The number of buckets that items are spread over. -/
  bucketCount : π → (items : Nat) → Nat
  bucketCount_pos (p : π) (items : Nat) : 0 < bucketCount p items

export LoadPolicy (needsGrow needsShrink bucketCount bucketCount_pos)

end PersistentCollections
