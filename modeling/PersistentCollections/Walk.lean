import PersistentCollections.Trie

/-! Walks: values that give out items one at a time and know how many are left.
A step that breaches the tree it walks over is reported as such; `next` then
answers nothing and stays where it is. -/

namespace PersistentCollections

class Walk (γ : Type) (α : outParam Type) where
  /-- The next item, if any is left, and the walk after it. -/
  step : γ → Except Breach (Option α × γ)
  /-- The number of items to come. -/
  remaining : γ → Nat

namespace Walk

variable {γ α : Type} [Walk γ α]

def next (c : γ) : Option α × γ :=
  match step c with
  | .ok r => r
  | .error _ => (none, c)

def nextMany (c : γ) (n : Nat) : List (Option α) × γ :=
  go n c []
where
  go : Nat → γ → List (Option α) → List (Option α) × γ
    | 0, c, seen => (seen.reverse, c)
    | n + 1, c, seen => go n (next c).2 ((next c).1 :: seen)

/-- Skips a number of items and gives out the one after them. It stops at the
first missing item. -/
def nth (c : γ) : Nat → Option α × γ
  | 0 => next c
  | n + 1 =>
    match next c with
    | (some _, c) => nth c n
    | (none, c) => (none, c)

def rest (c : γ) : List α × γ :=
  go (remaining c) c []
where
  go : Nat → γ → List α → List α × γ
    | 0, c, seen => (seen.reverse, c)
    | n + 1, c, seen =>
      match next c with
      | (some a, c) => go n c (a :: seen)
      | (none, c) => (seen.reverse, c)

end Walk

end PersistentCollections
