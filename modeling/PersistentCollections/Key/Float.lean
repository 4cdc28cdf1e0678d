import PersistentCollections.Number.Binary

/-! Floating-point numbers as keys: compared by their bits, so that the two zeros
are different keys and a NaN can be found again. -/

namespace PersistentCollections

structure FloatKey (p : Precision) where
  number : Binary p
deriving DecidableEq

end PersistentCollections
