/-! Decimals, and which way a number goes that lies half-way between two others. -/

namespace PersistentCollections

/-- The number `digits * 10 ^ exponent`. -/
structure Decimal where
  digits : Nat
  exponent : Int
deriving DecidableEq

inductive Tie where
  | up
  | even
deriving DecidableEq

namespace Tie

/-- The whole number nearest to `n / d`. -/
def quotient (tie : Tie) (n d : Nat) : Nat :=
  let below := n / d
  match compare (2 * (n % d)) d, tie with
  | .lt, _ => below
  | .gt, _ => below + 1
  | .eq, .up => below + 1
  | .eq, .even => below + below % 2

theorem quotient_mul (tie : Tie) (n : Nat) {d : Nat} (h : 0 < d) :
    tie.quotient (n * d) d = n := by
  have below : compare 0 d = .lt := Nat.compare_eq_lt.2 h
  simp [quotient, Nat.mul_div_cancel n h, below]

theorem quotient_le (tie : Tie) (n d : Nat) : tie.quotient n d ≤ n / d + 1 := by
  unfold quotient
  dsimp only
  split <;> omega

theorem le_quotient (tie : Tie) (n d : Nat) : n / d ≤ tie.quotient n d := by
  unfold quotient
  dsimp only
  split <;> omega

end Tie

end PersistentCollections
