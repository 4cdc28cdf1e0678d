import PersistentCollections.Decimal
import PersistentCollections.Number.Binary

/-! The binary number nearest to a given decimal; half-way between two it is the one
with the even significand. The search for it is exact: a decimal is a quotient of two
integers, whose leading bits give the scale of the result, and one division gives its
significand. A decimal that would round to more than the largest number has none. -/

namespace PersistentCollections

/-- The greatest `e` with `2 ^ e ≤ n / d`, for positive `n` and `d`. -/
def leadingBit (n d : Nat) : Int :=
  let e := (n.log2 : Int) - d.log2
  if d <<< e.toNat ≤ n <<< (-e).toNat then e else e - 1

namespace Precision

/-- The scale of the smallest numbers: they are multiples of `2 ^ leastScale`. -/
def leastScale (p : Precision) : Int := 1 - p.bias - p.fractionBits

/-- What the fields of the first infinity hold, the sign left out. -/
def infinity (p : Precision) : Nat := p.topExponent <<< p.fractionBits

end Precision

namespace Binary

def zero : Binary p := ⟨0⟩

def neg (x : Binary p) : Binary p := ⟨x.bits ^^^ .twoPow p.width (p.width - 1)⟩

/-- The number nearest to `n / d`, for positive `n` and `d`. A significand that is
rounded up to the next power of two carries into the exponent field. -/
def nearest? (n d : Nat) : Option (Binary p) :=
  let scale := max (leadingBit n d - p.fractionBits) p.leastScale
  let significand := Tie.even.quotient (n <<< (-scale).toNat) (d <<< scale.toNat)
  let fields := (scale - p.leastScale).toNat <<< p.fractionBits + significand
  if fields < p.infinity then some ⟨.ofNat _ fields⟩ else none

end Binary

namespace Decimal

/-- The number nearest to a decimal. As `10 ^ k` is at least `8 ^ k`, the leading bit
of the digits and the exponent show which decimals are beyond all numbers, and which
are less than half the smallest; their powers of ten are not formed. -/
def nearest? (x : Decimal) : Option (Binary p) :=
  let top := (x.digits.log2 : Int) + 3 * x.exponent
  if x.digits = 0 then some .zero
  else if 0 ≤ x.exponent then
    if p.bias < top then none
    else Binary.nearest? (x.digits * Nat.pow 10 x.exponent.toNat) 1
  else if top < p.leastScale - 1 then some .zero
  else Binary.nearest? x.digits (Nat.pow 10 x.exponent.natAbs)

end Decimal

namespace Binary

def ofDecimal? (negative : Bool) (d : Decimal) : Option (Binary p) :=
  d.nearest?.map fun x => if negative then x.neg else x

def ofInt? (n : Int) : Option (Binary p) := ofDecimal? (n < 0) ⟨n.natAbs, 0⟩

end Binary

end PersistentCollections
