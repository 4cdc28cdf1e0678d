import PersistentCollections.Load.Words
import PersistentCollections.Proofs.FloatRange
import PersistentCollections.Proofs.LoadRuns

/-! Where the number of buckets leaves the words. The target is one more than a quotient that is
cut off at the greatest word, so it is a word unless the quotient reaches the number after the
greatest word. With a middle factor of one or more it does not, for any number of items that
memory holds; that both factors are accepted is not enough. -/

namespace PersistentCollections

theorem BucketMap.contains_empty {π κ ν : Type} [BEq κ] (hash : κ → UInt64) (policy : π) (k : κ) :
    (empty hash policy : BucketMap π κ ν).contains k = false := by
  have nothing (i : Nat) : (empty hash policy : BucketMap π κ ν).bucket i = [] := by
    rw [(empty_wellFormed hash policy).tabled.bucket_eq, table_empty]
    cases i <;> rfl
  rw [contains_bucket, nothing]
  rfl

namespace LoadFactors

theorem toNat_max (a b : UInt64) : (max a b).toNat = max a.toNat b.toNat := by
  change (if a ≤ b then b else a).toNat = if a.toNat ≤ b.toNat then b.toNat else a.toNat
  simp only [UInt64.le_iff_toNat_le]
  split <;> rfl

theorem toNat_min (a b : UInt64) : (min a b).toNat = min a.toNat b.toNat := by
  change (if a ≤ b then a else b).toNat = if a.toNat ≤ b.toNat then a.toNat else b.toNat
  simp only [UInt64.le_iff_toNat_le]
  split <;> rfl

section

variable (c : LoadFactors) (items : Nat)

theorem target_eq : LoadNumber.target c.upper c.lower items =
    (items.toFloat / c.initial).toUInt64.toNat + 1 :=
  rfl

theorem target_le : LoadNumber.target c.upper c.lower items ≤ 2 ^ 64 :=
  (items.toFloat / c.initial).toUInt64.toNat_lt

theorem targetWord_toNat :
    (c.targetWord items).toNat = LoadNumber.target c.upper c.lower items % 2 ^ 64 :=
  UInt64.toNat_add _ _

theorem fewestWord_toNat : (c.fewestWord items).toNat = LoadNumber.fewest c.upper items :=
  toNat_max _ _

theorem mostWord_toNat : (c.mostWord items).toNat = LoadNumber.most c.lower items :=
  toNat_max _ _

theorem overflows_iff_target_eq :
    c.overflows items = true ↔ LoadNumber.target c.upper c.lower items = 2 ^ 64 := by
  rw [overflows, decide_eq_true_iff]
  exact ⟨Nat.le_antisymm (c.target_le items), fun equal => Nat.le_of_eq equal.symm⟩

theorem overflows_iff_le :
    c.overflows items = true ↔ (2 ^ 64 : Nat).toFloat ≤ items.toFloat / c.initial := by
  rw [overflows_iff_target_eq, target_eq, ← FloatRange.toUInt64_eq_greatest_iff]
  omega

theorem countWord_of_overflows (wraps : c.overflows items = true) :
    c.targetWord items = 0 ∧ c.countWord items = c.fewestWord items := by
  have zero : (c.targetWord items).toNat = 0 := by
    rw [targetWord_toNat, (c.overflows_iff_target_eq items).1 wraps, Nat.mod_self]
  refine ⟨UInt64.toNat_inj.1 zero, UInt64.toNat_inj.1 ?_⟩
  rw [countWord, toNat_max, toNat_min, zero, Nat.zero_min, Nat.max_zero]

theorem countWord_toNat (within : c.overflows items = false) :
    (c.countWord items).toNat = bucketCount c items := by
  have less : LoadNumber.target c.upper c.lower items < 2 ^ 64 :=
    Nat.lt_of_not_le (of_decide_eq_false within)
  simp only [countWord, toNat_max, toNat_min, targetWord_toNat, fewestWord_toNat,
    mostWord_toNat, Nat.mod_eq_of_lt less]
  rfl

end

/-- The number of buckets for so many items, found in words. -/
structure SizedInWords (c : LoadFactors) (items : Nat) : Prop where
  target_le : LoadNumber.target c.upper c.lower items ≤ 2 ^ 64
  overflows_iff : c.overflows items = true ↔
    (2 ^ 64 : Nat).toFloat ≤ items.toFloat / c.initial
  of_overflows : c.overflows items = true →
    c.targetWord items = 0 ∧ c.countWord items = c.fewestWord items
  of_within : c.overflows items = false → (c.countWord items).toNat = bucketCount c items
  within : 1 ≤ c.initial → items < 2 ^ 62 → c.overflows items = false

/-- In words the number of buckets is the intended one unless the quotient of the items by the
middle factor reaches the number of words. Then the target wraps to zero. It cannot happen
with a middle factor of one or more and as many items as memory holds. -/
theorem sized_in_words (c : LoadFactors) (items : Nat) : c.SizedInWords items where
  target_le := c.target_le items
  overflows_iff := c.overflows_iff_le items
  of_overflows := c.countWord_of_overflows items
  of_within := c.countWord_toNat items
  within one small := Bool.not_eq_true _ ▸ fun wraps =>
    FloatRange.not_limit_le_div small one ((c.overflows_iff_le items).1 wraps)

/-- Factors of about `2 ^ (-1000)` are accepted, and the first insertion into an empty map asks
for a number of buckets that is no word. -/
theorem accepted_factors_overflow :
    ∃ c : LoadFactors,
      make (Float.ofBits 0x0170000000000000) (Float.ofBits 0x0160000000000000) = .ok c ∧
      (∀ {κ ν : Type} [BEq κ] (hash : κ → UInt64) (k : κ),
        (BucketMap.empty hash c : BucketMap LoadFactors κ ν).growsOn k = true) ∧
      LoadNumber.target c.upper c.lower 1 = 2 ^ 64 ∧ c.overflows 1 = true ∧
      c.targetWord 1 = 0 := by
  have made : ∃ c : LoadFactors,
      make (Float.ofBits 0x0170000000000000) (Float.ofBits 0x0160000000000000) = .ok c ∧
      needsGrow c 1 1 = true ∧ LoadNumber.target c.upper c.lower 1 = 2 ^ 64 := by
    refine ⟨⟨Float.ofBits 0x0170000000000000, Float.ofBits 0x0160000000000000⟩, ?_, ?_, ?_⟩
    · have faultless : LoadNumber.fault? (Float.ofBits 0x0170000000000000)
          (Float.ofBits 0x0160000000000000) = none := by decide +kernel
      rw [make, faultless]
    · decide +kernel
    · decide +kernel
  obtain ⟨c, accepted, grow, target⟩ := made
  have wraps := (c.overflows_iff_target_eq 1).2 target
  refine ⟨c, accepted, fun {κ ν} _ hash k => ?_, target, wraps,
    (c.countWord_of_overflows 1 wraps).1⟩
  have load := BucketMap.empty_load (κ := κ) (ν := ν) hash c
  rw [BucketMap.growsOn, BucketMap.contains_empty]
  exact (congrArg (fun l : Load => needsGrow c (l.items + 1) l.buckets) load).trans grow

end LoadFactors

end PersistentCollections
