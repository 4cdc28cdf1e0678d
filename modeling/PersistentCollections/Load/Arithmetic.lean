/-! The arithmetic of load factors, over any kind of numbers. With floating-point
numbers it is what maps run on; with exact numbers it is what their load bounds mean. -/

namespace PersistentCollections

/-- Numbers that a load factor can be. -/
class LoadNumber (δ : Type) extends Add δ, Mul δ, Div δ where
  ofCount : Nat → δ
  less : δ → δ → Bool
  isFinite : δ → Bool
  /-- The number itself if it is whole, or else the next whole one. -/
  roundUp : δ → δ
  /-- The whole part, as a count. -/
  whole : δ → Nat

namespace LoadNumber

inductive Fault where
  | notPositive
  | tooClose
deriving DecidableEq

variable {δ : Type} [LoadNumber δ]

/-- Factors without a fault leave no number of items without a fitting number of buckets. -/
def fault? (upper lower : δ) : Option Fault :=
  let zero : δ := ofCount 0
  if isFinite upper && isFinite lower && less zero upper && less zero lower then
    if less upper (ofCount 2 * lower) then some .tooClose else none
  else
    some .notPositive

def tooMany (upper : δ) (items buckets : Nat) : Bool :=
  less (ofCount buckets * upper) (ofCount items)

/-- Fewer items than the lower factor allows. A single bucket may hold any number. -/
def tooFew (lower : δ) (items buckets : Nat) : Bool :=
  1 < buckets && less (ofCount items) (ofCount buckets * lower)

/-- The mean that a fresh spread aims at. -/
def initial (upper lower : δ) : δ := (upper + lower) / ofCount 2

/-- The count that the middle factor asks for. -/
def target (upper lower : δ) (items : Nat) : Nat :=
  whole (ofCount items / initial upper lower) + 1

/-- The least count that the upper factor allows. -/
def fewest (upper : δ) (items : Nat) : Nat := max (whole (roundUp (ofCount items / upper))) 1

/-- The greatest count that the lower factor allows. -/
def most (lower : δ) (items : Nat) : Nat := max (whole (ofCount items / lower)) 1

/-- The count that a fresh spread gets: the target, as far as both factors allow it. -/
def bucketsFor (upper lower : δ) (items : Nat) : Nat :=
  max (fewest upper items) (min (target upper lower items) (max (most lower items) (fewest upper items)))

theorem bucketsFor_pos (upper lower : δ) (items : Nat) : 0 < bucketsFor upper lower items := by
  simp only [bucketsFor, fewest]
  omega

end LoadNumber

end PersistentCollections
