/-! Binary floating-point numbers, kept as their bits. Equality of the bits is
decidable equality; `==` is equality of the numbers, for which no NaN equals
anything and the two zeros are equal. -/

namespace PersistentCollections

inductive Precision where
  | single
  | double
deriving DecidableEq

namespace Precision

def exponentBits : Precision → Nat
  | single => 8
  | double => 11

def fractionBits : Precision → Nat
  | single => 23
  | double => 52

def width (p : Precision) : Nat := 1 + p.exponentBits + p.fractionBits

/-- What the exponent field of the number 1 holds. -/
def bias (p : Precision) : Nat := 1 <<< (p.exponentBits - 1) - 1

def topExponent (p : Precision) : Nat := 1 <<< p.exponentBits - 1

end Precision

structure Binary (p : Precision) where
  bits : BitVec p.width
deriving DecidableEq

namespace Binary

variable {p : Precision}

def negative (x : Binary p) : Bool := x.bits.toNat.testBit (p.width - 1)

def exponentField (x : Binary p) : Nat := (x.bits.toNat >>> p.fractionBits) % (1 <<< p.exponentBits)

def fractionField (x : Binary p) : Nat := x.bits.toNat % (1 <<< p.fractionBits)

def isFinite (x : Binary p) : Bool := x.exponentField != p.topExponent

def isNaN (x : Binary p) : Bool := !x.isFinite && x.fractionField != 0

def isZero (x : Binary p) : Bool := x.exponentField == 0 && x.fractionField == 0

/-- The significand `m` of a finite number `± m * 2 ^ x.scale`. -/
def significand (x : Binary p) : Nat :=
  if x.exponentField = 0 then x.fractionField else 1 <<< p.fractionBits + x.fractionField

def scale (x : Binary p) : Int :=
  max x.exponentField 1 - p.bias - p.fractionBits

def same (x y : Binary p) : Bool :=
  !x.isNaN && !y.isNaN && (x.bits == y.bits || (x.isZero && y.isZero))

instance : BEq (Binary p) := ⟨same⟩

def ofFloat (x : Float) : Binary .double := ⟨x.toBits.toBitVec⟩

def toFloat (x : Binary .double) : Float := .ofBits (.ofBitVec x.bits)

end Binary

end PersistentCollections
