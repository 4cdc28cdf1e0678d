import PersistentCollections.Decimal
import PersistentCollections.Number.Binary

/-! The shortest decimal that reads back as a given binary number. Of the decimals
with the fewest digits it is the one nearest to the number; a `Tie` says which of
two equally near ones is taken.

The numbers that round to a float form an interval around it. With both ends and
the float itself written as integers in one unit, a power of ten, the search goes
through the grids of multiples of 10, 100, ... of the unit from the coarsest on:
if any point of a grid lies in the interval, so does one of the two points of the
grid next to the float. The finest grid holds the float itself. -/

namespace PersistentCollections

/-- The decimals that round to one float, as integers times `10 ^ unit`. -/
structure RoundingInterval where
  low : Nat
  value : Nat
  high : Nat
  /-- Whether the two ends round to the float as well. -/
  closed : Bool
  unit : Int

namespace RoundingInterval

def contains (r : RoundingInterval) (n : Nat) : Bool :=
  if r.closed then r.low ≤ n && n ≤ r.high else r.low < n && n < r.high

/-- The search from the grid `10 ^ power` on. Gives the digits and their power. -/
def search (r : RoundingInterval) (tie : Tie) : (power : Nat) → Nat × Nat
  | 0 => (r.value, 0)
  | power + 1 =>
    let grid := Nat.pow 10 (power + 1)
    let below := r.value / grid
    match r.contains (below * grid), r.contains ((below + 1) * grid) with
    | true, true => (tie.quotient r.value grid, power + 1)
    | true, false => (below, power + 1)
    | false, true => (below + 1, power + 1)
    | false, false => search r tie power

def shortest (r : RoundingInterval) (tie : Tie) : Decimal :=
  let (digits, power) := r.search tie (Nat.toDigits 10 r.value).length
  ⟨digits, r.unit + power⟩

end RoundingInterval

namespace Binary

/-- The interval of a positive finite number. Its ends lie half-way to the two
neighbours; below a power of two the lower neighbour is twice as near. -/
def interval (x : Binary p) : RoundingInterval :=
  let m := 4 * x.significand
  let down := if x.fractionField = 0 ∧ 1 < x.exponentField then 1 else 2
  let closed := x.significand % 2 == 0
  let power := x.scale - 2
  if power < 0 then
    let k := power.natAbs
    let five := Nat.pow 5 k
    ⟨(m - down) * five, m * five, (m + 2) * five, closed, power⟩
  else
    let k := power.natAbs
    ⟨(m - down) <<< k, m <<< k, (m + 2) <<< k, closed, 0⟩

def shortest (x : Binary p) (tie : Tie) : Decimal :=
  if x.isZero then ⟨0, 0⟩ else x.interval.shortest tie

end Binary

end PersistentCollections
