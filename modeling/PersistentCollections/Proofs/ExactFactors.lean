import Mathlib.Algebra.Order.Floor.Ring
import Mathlib.Algebra.Order.Floor.Semifield
import Mathlib.Data.Rat.Floor
import Mathlib.Tactic.Linarith
import Mathlib.Tactic.NormNum
import PersistentCollections.Load.Arithmetic
import PersistentCollections.Proofs.LoadBounds

/-! Load factors without rounding. Every finite floating-point number is a fraction; with
fractions for the factors, and exact products and quotients, a spread gives a number of
buckets that fits both bounds, for any number of items. -/

namespace PersistentCollections

instance : LoadNumber ℚ where
  ofCount n := n
  less x y := x < y
  isFinite _ := true
  roundUp x := ⌈x⌉
  whole x := ⌊x⌋₊

namespace LoadNumber

theorem fault?_eq_none_iff {upper lower : ℚ} :
    fault? upper lower = none ↔ (0 < upper ∧ 0 < lower) ∧ 2 * lower ≤ upper := by
  simp only [fault?, isFinite, less, ofCount, Bool.true_and, Bool.and_eq_true, decide_eq_true_eq,
    Nat.cast_zero, Nat.cast_ofNat]
  by_cases positive : 0 < upper ∧ 0 < lower
  · by_cases close : upper < 2 * lower
    · simp [positive, close]
    · simp [positive, close, not_lt.1 close]
  · simp [positive]

theorem whole_roundUp (x : ℚ) : whole (roundUp x) = ⌈x⌉₊ := by
  simp only [whole, roundUp]
  rw [← Int.floor_toNat, Int.floor_intCast, Int.ceil_toNat]

end LoadNumber

/-- A pair of load factors that has no fault. -/
structure ExactFactors where
  upper : ℚ
  lower : ℚ
  accepted : LoadNumber.fault? upper lower = none

namespace ExactFactors

def default : ExactFactors := ⟨8, 2, LoadNumber.fault?_eq_none_iff.2 (by norm_num)⟩

instance : LoadPolicy ExactFactors where
  needsGrow c := LoadNumber.tooMany c.upper
  needsShrink c := LoadNumber.tooFew c.lower
  bucketCount c := LoadNumber.bucketsFor c.upper c.lower
  bucketCount_pos c := LoadNumber.bucketsFor_pos c.upper c.lower

variable (c : ExactFactors) {items buckets others : Nat}

theorem upper_pos : 0 < c.upper := (LoadNumber.fault?_eq_none_iff.1 c.accepted).1.1

theorem lower_pos : 0 < c.lower := (LoadNumber.fault?_eq_none_iff.1 c.accepted).1.2

theorem two_mul_lower_le : 2 * c.lower ≤ c.upper := (LoadNumber.fault?_eq_none_iff.1 c.accepted).2

theorem needsGrow_eq_false_iff :
    needsGrow c items buckets = false ↔ (items : ℚ) ≤ buckets * c.upper := by
  simp [needsGrow, LoadNumber.tooMany, LoadNumber.less, LoadNumber.ofCount]

theorem needsShrink_eq_false_iff :
    needsShrink c items buckets = false ↔ (1 < buckets → buckets * c.lower ≤ (items : ℚ)) := by
  simp [needsShrink, LoadNumber.tooFew, LoadNumber.less, LoadNumber.ofCount]

theorem needsGrow_of_le (more : buckets ≤ others) (room : needsGrow c items buckets = false) :
    needsGrow c items others = false := by
  rw [needsGrow_eq_false_iff] at *
  calc (items : ℚ)
      ≤ buckets * c.upper := room
    _ ≤ others * c.upper := by gcongr; exact c.upper_pos.le

theorem needsShrink_of_le (fewer : others ≤ buckets)
    (filled : needsShrink c items buckets = false) : needsShrink c items others = false := by
  rw [needsShrink_eq_false_iff] at *
  intro several
  calc (others : ℚ) * c.lower
      ≤ buckets * c.lower := by gcongr; exact c.lower_pos.le
    _ ≤ items := filled (by omega)

/-! ### Numbers of buckets -/

theorem le_fewest (items : Nat) : (items : ℚ) ≤ LoadNumber.fewest c.upper items * c.upper := by
  rw [← div_le_iff₀ c.upper_pos]
  calc (items : ℚ) / c.upper
      ≤ ⌈(items : ℚ) / c.upper⌉₊ := Nat.le_ceil _
    _ ≤ LoadNumber.fewest c.upper items := by
        rw [LoadNumber.fewest, LoadNumber.whole_roundUp]
        exact_mod_cast Nat.le_max_left _ _

theorem most_mul_le (several : 1 < LoadNumber.most c.lower items) :
    LoadNumber.most c.lower items * c.lower ≤ (items : ℚ) := by
  rw [← le_div_iff₀ c.lower_pos]
  have whole : LoadNumber.most c.lower items = ⌊(items : ℚ) / c.lower⌋₊ := by
    simp only [LoadNumber.most] at *
    exact max_eq_left (by omega)
  rw [whole]
  exact Nat.floor_le (div_nonneg (Nat.cast_nonneg _) c.lower_pos.le)

/-- Two buckets, or more, that the upper factor asks for have enough items, as the upper
factor is at least twice the lower one. -/
theorem fewest_mul_le (several : 1 < LoadNumber.fewest c.upper items) :
    LoadNumber.fewest c.upper items * c.lower ≤ (items : ℚ) := by
  have whole : LoadNumber.fewest c.upper items = ⌈(items : ℚ) / c.upper⌉₊ := by
    simp only [LoadNumber.fewest, LoadNumber.whole_roundUp] at *
    exact max_eq_left (by omega)
  rw [whole] at several ⊢
  have above : (1 : ℚ) < items / c.upper := by
    exact_mod_cast Nat.lt_ceil.1 several
  have rounded := Nat.ceil_lt_add_one (zero_lt_one.trans above).le
  have twice : (⌈(items : ℚ) / c.upper⌉₊ : ℚ) ≤ 2 * (items / c.upper) := by linarith
  calc (⌈(items : ℚ) / c.upper⌉₊ : ℚ) * c.lower
      ≤ 2 * (items / c.upper) * c.lower := by gcongr; exact c.lower_pos.le
    _ = items / c.upper * (2 * c.lower) := by ring
    _ ≤ items / c.upper * c.upper := by gcongr; exact c.two_mul_lower_le
    _ = items := div_mul_cancel₀ _ c.upper_pos.ne'

theorem fewest_le_most (items : Nat) :
    LoadNumber.fewest c.upper items ≤ LoadNumber.most c.lower items := by
  by_cases several : 1 < LoadNumber.fewest c.upper items
  · have quotient : (LoadNumber.fewest c.upper items : ℚ) ≤ items / c.lower :=
      (le_div_iff₀ c.lower_pos).2 (c.fewest_mul_le several)
    exact (Nat.le_floor quotient).trans (Nat.le_max_left _ _)
  · have one : 1 ≤ LoadNumber.most c.lower items := Nat.le_max_right _ _
    omega

theorem bucketCount_eq (items : Nat) : bucketCount c items =
    max (LoadNumber.fewest c.upper items)
      (min (LoadNumber.target c.upper c.lower items) (LoadNumber.most c.lower items)) := by
  simp only [bucketCount, LoadNumber.bucketsFor, max_eq_left (c.fewest_le_most items)]

theorem sized (items : Nat) : Load.Balanced c ⟨items, bucketCount c items⟩ := by
  have uncrossed := c.fewest_le_most items
  have least : LoadNumber.fewest c.upper items ≤ bucketCount c items := Nat.le_max_left _ _
  have greatest : bucketCount c items ≤ LoadNumber.most c.lower items := by
    rw [bucketCount_eq]
    omega
  constructor
  · exact c.needsGrow_of_le least (c.needsGrow_eq_false_iff.2 (c.le_fewest items))
  · exact c.needsShrink_of_le greatest (c.needsShrink_eq_false_iff.2 c.most_mul_le)

theorem bucketCount_default (items : Nat) : bucketCount default items = items / 5 + 1 := by
  have middle : LoadNumber.target default.upper default.lower items = items / 5 + 1 := by
    have mean : LoadNumber.initial default.upper default.lower = (5 : Nat) := by
      norm_num [LoadNumber.initial, LoadNumber.ofCount, default]
    rw [LoadNumber.target, mean]
    exact congrArg (· + 1) (Nat.floor_div_eq_div items 5)
  have fewest : LoadNumber.fewest default.upper items ≤ items / 8 + 1 := by
    rw [LoadNumber.fewest, LoadNumber.whole_roundUp]
    have rounded := Nat.ceil_le_floor_add_one ((items : ℚ) / (8 : Nat))
    rw [Nat.floor_div_eq_div] at rounded
    exact max_le rounded (Nat.le_add_left _ _)
  have most : LoadNumber.most default.lower items = max (items / 2) 1 :=
    congrArg (max · 1) (Nat.floor_div_eq_div items 2)
  simp only [bucketCount, LoadNumber.bucketsFor]
  rw [middle, most]
  omega

theorem consistent : Load.Consistent c where
  grow_mono fewer kept := by
    rw [needsGrow_eq_false_iff] at *
    exact le_trans (by exact_mod_cast fewer) kept
  shrink_mono more kept := by
    rw [needsShrink_eq_false_iff] at *
    exact fun several => (kept several).trans (by exact_mod_cast more)
  single := ⟨c.needsGrow_eq_false_iff.2 (by simpa using c.upper_pos.le),
    c.needsShrink_eq_false_iff.2 (by simp)⟩
  sized := c.sized

end ExactFactors

open Load (Balanced)

variable {κ ν : Type} [BEq κ] [EquivBEq κ] {hash hash' : κ → UInt64}

/-- A map that was never made at once from items with a key twice keeps both bounds, and so
do the sets that come from two sets, whatever these are like. Every other map has not too
many items, and fits again after an erasure. -/
theorem exact_loads_balanced (lawful : Respects hash) (lawful' : Respects hash')
    (c c' : ExactFactors) :
    (∀ m : BucketMap ExactFactors κ ν, m.Fitted hash c → Balanced c m.load) ∧
    (∀ s w : BucketSet ExactFactors κ, s.Reachable hash c → w.Reachable hash' c' →
      Balanced c (s.intersection w).value.map.load ∧
      Balanced c (s.difference w).value.map.load ∧
      Balanced c (s.symmetricDifference w).value.map.load) ∧
    (∀ m : BucketMap ExactFactors κ ν, m.Reachable hash c →
      needsGrow c m.length m.buckets.length = false ∧
      ∀ k, m.contains k = true → Balanced c (m.erase k).value.load ∧
        ∀ v, (m.insert k v).value.buckets.length = m.buckets.length) ∧
    ∀ s : BucketSet ExactFactors κ, s.Reachable hash c →
      needsGrow c s.length s.map.buckets.length = false := by
  refine ⟨fun m fitted => ?_, fun s w hs hw => ?_, fun m reachable => ?_, fun s reachable => ?_⟩
  · exact (fitted.balanced c.consistent lawful).load
  · have first := hs.represents_toList lawful
    have second := hw.represents_toList lawful'
    have rebuilt {elements : List κ} (apart : BucketSet.Apart elements) :=
      BucketSet.rebuild_balanced c.consistent lawful first.hash_eq first.policy_eq apart
    exact ⟨rebuilt (first.apart.sublist List.filter_sublist), rebuilt (first.without_apart w),
      rebuilt (first.withouts_apart second lawful')⟩
  · obtain ⟨⟨_, wellFormed, rfl, rfl, _⟩, roomy⟩ := reachable.roomy c.consistent lawful
    refine ⟨roomy, fun k known => ⟨?_, wellFormed.length_buckets_insert lawful known⟩⟩
    rw [BucketMap.load_erase wellFormed lawful, known]
    exact m.policy.consistent.erase_known_balanced roomy
  · exact (reachable.roomy c.consistent lawful).load

theorem exact_loads_balanced_caseless :
    Respects (crc32Of : Caseless → UInt64) ∧ Respects (fun _ : Caseless => 0) ∧
      let words := [Caseless.mk "Ab", ⟨"aB"⟩, ⟨"Ab"⟩, ⟨"AB"⟩, ⟨"Ab"⟩]
      let m := (BucketMap.ofList crc32Of ExactFactors.default (words.map fun a => (a, 1))).value
      let some := (BucketMap.empty crc32Of ExactFactors.default).insert (Caseless.mk "c") 2
      let s := (BucketSet.ofList crc32Of ExactFactors.default words).value
      let w := (BucketSet.ofList (fun _ => 0) ExactFactors.default words).value
      some.value.Fitted crc32Of .default ∧ Balanced ExactFactors.default some.value.load ∧
        m.Reachable crc32Of .default ∧ m.contains ⟨"aB"⟩ = true ∧
          Balanced ExactFactors.default (m.erase ⟨"aB"⟩).value.load ∧
        s.Reachable crc32Of .default ∧ w.Reachable (fun _ => 0) .default ∧
          Balanced ExactFactors.default (s.intersection w).value.map.load := by
  have constant : Respects (fun _ : Caseless => 0) := fun _ _ _ => rfl
  refine ⟨crc32Of_respects, constant, ?_⟩
  intro words m some s w
  have fitted : some.value.Fitted crc32Of .default := .insert _ _ .empty
  have reachable : m.Reachable crc32Of .default := .ofList _
  have hs : s.Reachable crc32Of .default := .ofList _
  have hw : w.Reachable (fun _ => 0) .default := .ofList _
  have known : m.contains ⟨"aB"⟩ = true := by
    have form := BucketMap.ofList_represents crc32Of_respects ExactFactors.default
      (words.map fun a => (a, 1))
    rw [(form.answers crc32Of_respects).contains, Association.find?_insertAll_nil]
    simp [words, Association.find?]
  obtain ⟨maps, sets, erased, _⟩ := exact_loads_balanced (ν := Nat) crc32Of_respects
    constant ExactFactors.default ExactFactors.default
  exact ⟨fitted, maps _ fitted, reachable, known, ((erased m reachable).2 _ known).1, hs, hw,
    (sets s w hs hw).1⟩

end PersistentCollections
