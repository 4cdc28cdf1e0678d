import PersistentCollections.Proofs.VectorCanonical
import PersistentCollections.Proofs.VectorGrowth

/-! The numbers of a vector in words of 64 bits. A height is kept as a shift, five bits for
each level, and the place of an index in a node, the room of a tree and the start of the
tail are found with shifts and a mask. As long as the length fits in a word, no shift goes
beyond 60, and then all of these are what they are on natural numbers. -/

namespace PersistentCollections

namespace Word

def shift (height : Nat) : UInt64 := .ofNat (5 * height)

def digit (shift index : UInt64) : UInt64 := index >>> shift &&& 31

def capacity (shift : UInt64) : UInt64 := 1 <<< shift

/-- The leaves of so many elements are more than a node can have below it. -/
def Overflows (shift length : UInt64) : Prop := capacity shift < length >>> 5

def tailOffset (length : UInt64) : UInt64 :=
  if length < 32 then 0 else (length - 1) >>> 5 <<< 5

variable {height : Nat}

theorem shift_toNat (h : height ≤ 12) : (shift height).toNat = 5 * height :=
  UInt64.toNat_ofNat_of_lt' (Nat.lt_of_le_of_lt (Nat.mul_le_mul_left 5 h) (by decide))

theorem shift_mod (h : height ≤ 12) : (shift height).toNat % 64 = 5 * height := by
  rw [shift_toNat h]
  omega

theorem digit_toNat (h : height ≤ 12) (index : UInt64) :
    (digit (shift height) index).toNat = PersistentCollections.digit height index.toNat := by
  rw [digit, UInt64.toNat_and, UInt64.toNat_shiftRight, shift_mod h]
  exact Nat.and_two_pow_sub_one_eq_mod _ 5

theorem capacity_toNat (h : height ≤ 12) :
    (capacity (shift height)).toNat = leafCapacity height := by
  have below : 2 ^ (5 * height) < 2 ^ 64 := Nat.pow_lt_pow_right (by decide) (by omega)
  rw [capacity, UInt64.toNat_shiftLeft, shift_mod h, leafCapacity_eq_two_pow]
  change 1 <<< (5 * height) % 2 ^ 64 = 2 ^ (5 * height)
  rw [Nat.one_shiftLeft, Nat.mod_eq_of_lt below]

theorem leaves_toNat (length : UInt64) : (length >>> 5).toNat = length.toNat / width :=
  (UInt64.toNat_shiftRight length 5).trans (Nat.shiftRight_eq_div_pow _ 5)

theorem overflows_iff (h : height ≤ 12) (length : UInt64) :
    Overflows (shift height) length ↔ leafCapacity height < length.toNat / width := by
  rw [Overflows, UInt64.lt_iff_toNat_lt, capacity_toNat h, leaves_toNat]

/-- Shifting the bits below the leaf out and zeros in does not reach the top of the word. -/
theorem tailOffset_toNat {α : Type} (v : TrieVector α) {length : UInt64}
    (same : length.toNat = v.length) : (tailOffset length).toNat = v.tailOffset := by
  by_cases short : v.length < width
  · have less : length < 32 := UInt64.lt_iff_toNat_lt.2 (same ▸ short)
    rw [tailOffset, TrieVector.tailOffset, if_pos less, if_pos short]
    rfl
  · have atLeast : ¬length < 32 := fun less => short (same ▸ UInt64.lt_iff_toNat_lt.1 less)
    have one : (1 : UInt64) ≤ length := by
      rw [UInt64.le_iff_toNat_le, same]
      exact Nat.le_trans (by decide) (Nat.le_of_not_lt short)
    have before : (length - 1).toNat = v.length - 1 := by
      rw [UInt64.toNat_sub_of_le _ _ one, same]
      rfl
    have bound : (v.length - 1) / width * width < 2 ^ 64 :=
      Nat.lt_of_le_of_lt (Nat.div_mul_le_self _ _) (before ▸ UInt64.toNat_lt _)
    rw [tailOffset, TrieVector.tailOffset, if_neg atLeast, if_neg short, UInt64.toNat_shiftLeft,
      leaves_toNat, before]
    change ((v.length - 1) / width) <<< 5 % 2 ^ 64 = _
    rw [Nat.shiftLeft_eq]
    exact Nat.mod_eq_of_lt bound

end Word

namespace TrieVector

variable {α : Type} {v : TrieVector α}

/-- In words the numbers of a vector are what they are on natural numbers: at its root and
at every height below, for any index. -/
structure FitsWords (v : TrieVector α) : Prop where
  shift_le : 5 * v.height ≤ 60
  digit : ∀ height ≤ v.height, ∀ index : UInt64,
    (Word.digit (Word.shift height) index).toNat = PersistentCollections.digit height index.toNat
  capacity : (Word.capacity (Word.shift v.height)).toNat = leafCapacity v.height
  overflows : Word.Overflows (Word.shift v.height) (.ofNat v.length) ↔
    leafCapacity v.height < v.length / width
  tailOffset : (Word.tailOffset (.ofNat v.length)).toNat = v.tailOffset

/-- A tree of no needless height that is higher would hold more than a word can count. -/
theorem Intact.height_le_of_lt (h : v.Intact) (small : v.length < 2 ^ 64) : v.height ≤ 12 := by
  have total := h.length_eq
  rcases h.minimal with one | needed
  · omega
  · refine Nat.le_of_not_lt fun higher => ?_
    have most : leafCapacity 12 ≤ leafCapacity (v.height - 1) := leafCapacity_le (by omega)
    have twelve : leafCapacity 12 = 2 ^ 60 := by decide
    simp only [width] at total
    omega

theorem Intact.fitsWords (h : v.Intact) (small : v.length < 2 ^ 64) : v.FitsWords := by
  have height := h.height_le_of_lt small
  have length : (UInt64.ofNat v.length).toNat = v.length := UInt64.toNat_ofNat_of_lt' small
  refine ⟨Nat.mul_le_mul_left 5 height, fun low below index => ?_, Word.capacity_toNat height, ?_,
    Word.tailOffset_toNat v length⟩
  · exact Word.digit_toNat (Nat.le_trans below height) index
  · rw [Word.overflows_iff height, length]

end TrieVector

end PersistentCollections
