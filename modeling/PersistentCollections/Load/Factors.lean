import PersistentCollections.Decimal.Layout
import PersistentCollections.Load.Arithmetic
import PersistentCollections.Load.Policy

/-! Load factors: bounds on the mean number of items per bucket. A map grows when an
item would bring the mean above the upper one and shrinks when a removal brings it
below the lower one; in between it is spread so that the mean comes close to their
middle. The arithmetic is that of 64-bit floating-point numbers; a quotient that
becomes a count is cut off and bounded by `2 ^ 64 - 1`. -/

namespace PersistentCollections

structure LoadFactors where
  upper : Float
  lower : Float

inductive LoadError where
  | notPositive (upper lower : Float)
  | tooClose (upper lower : Float)

namespace LoadError

/-- Factors in messages never have an exponent and are whole without a fraction. -/
def factor : Layout := ⟨none, false, "", .up⟩

private def shown (x : Float) : String := factor.text (Binary.ofFloat x)

def message : LoadError → String
  | notPositive upper lower =>
    "load factors must be finite and positive (got upper " ++ shown upper ++ ", lower "
      ++ shown lower ++ ")"
  | tooClose upper lower =>
    "upper load factor " ++ shown upper ++ " must be at least twice the lower load factor "
      ++ shown lower

end LoadError

namespace LoadFactors

def default : LoadFactors := ⟨8, 2⟩

instance : Inhabited LoadFactors := ⟨default⟩

instance : LoadNumber Float where
  ofCount := Nat.toFloat
  less x y := x < y
  isFinite := Float.isFinite
  roundUp := Float.ceil
  whole x := x.toUInt64.toNat

def make (upper lower : Float) : Except LoadError LoadFactors :=
  match LoadNumber.fault? upper lower with
  | none => .ok ⟨upper, lower⟩
  | some .notPositive => .error (.notPositive upper lower)
  | some .tooClose => .error (.tooClose upper lower)

def initial (c : LoadFactors) : Float := LoadNumber.initial c.upper c.lower

instance : LoadPolicy LoadFactors where
  needsGrow c := LoadNumber.tooMany c.upper
  needsShrink c := LoadNumber.tooFew c.lower
  bucketCount c := LoadNumber.bucketsFor c.upper c.lower
  bucketCount_pos c := LoadNumber.bucketsFor_pos c.upper c.lower

end LoadFactors

end PersistentCollections
