import PersistentCollections.Proofs.ExactFactors

/-! The size of a map that is spread anew. With exact factors the least number of buckets
that the upper one allows is never above the greatest that the lower one allows, so there
is always a number in between, and the one nearest to the target is taken. A map that had
too few buckets for its items gets more, and one that had too many gets fewer. -/

namespace PersistentCollections

/-- A rebuilding is reported with these numbers of buckets, and goes in the right direction. -/
def Event.Resizes (before after : Nat) : Event → Prop
  | rootGrew .. => True
  | mapGrew _ old new => old = before ∧ new = after ∧ before < after
  | mapShrank _ old new => old = before ∧ new = after ∧ after < before

namespace ExactFactors

variable (c : ExactFactors) {items buckets : Nat}

theorem fewest_eq (items : Nat) :
    LoadNumber.fewest c.upper items = max 1 ⌈(items : ℚ) / c.upper⌉₊ := by
  rw [LoadNumber.fewest, LoadNumber.whole_roundUp, max_comm]
  rfl

theorem most_eq (items : Nat) :
    LoadNumber.most c.lower items = max 1 ⌊(items : ℚ) / c.lower⌋₊ :=
  max_comm _ _

theorem target_eq (items : Nat) : LoadNumber.target c.upper c.lower items =
    ⌊(items : ℚ) / ((c.upper + c.lower) / 2)⌋₊ + 1 :=
  rfl

theorem lt_bucketCount (full : needsGrow c items buckets = true) :
    buckets < bucketCount c items := by
  by_contra! fewer
  have room := c.needsGrow_of_le fewer (c.sized items).grow
  simp [room] at full

theorem bucketCount_lt (few : needsShrink c items buckets = true) :
    bucketCount c items < buckets := by
  by_contra! more
  have filled := c.needsShrink_of_le more (c.sized items).shrink
  simp [filled] at few

/-- The number of buckets for so many items, between bounds that do not cross. -/
structure Sizes (c : ExactFactors) (items : Nat) : Prop where
  uncrossed : max 1 ⌈(items : ℚ) / c.upper⌉₊ ≤ max 1 ⌊(items : ℚ) / c.lower⌋₊
  clamped : bucketCount c items = max (max 1 ⌈(items : ℚ) / c.upper⌉₊)
    (min (⌊(items : ℚ) / ((c.upper + c.lower) / 2)⌋₊ + 1) (max 1 ⌊(items : ℚ) / c.lower⌋₊))
  pos : 1 ≤ bucketCount c items
  needsGrow : needsGrow c items (bucketCount c items) = false
  needsShrink : needsShrink c items (bucketCount c items) = false
  grows : ∀ buckets, LoadPolicy.needsGrow c items buckets = true → buckets < bucketCount c items
  shrinks : ∀ buckets, LoadPolicy.needsShrink c items buckets = true →
    bucketCount c items < buckets

theorem sizes (items : Nat) : c.Sizes items where
  uncrossed := c.fewest_eq items ▸ c.most_eq items ▸ c.fewest_le_most items
  clamped := by rw [bucketCount_eq, fewest_eq, most_eq, target_eq]
  pos := bucketCount_pos c items
  needsGrow := (c.sized items).grow
  needsShrink := (c.sized items).shrink
  grows _ := c.lt_bucketCount
  shrinks _ := c.bucketCount_lt

end ExactFactors

namespace BucketMap

variable {κ ν : Type} [BEq κ] {m : BucketMap ExactFactors κ ν} {k : κ}

theorem length_buckets_lt_insert (grows : m.growsOn k = true) (v : ν) :
    m.buckets.length < (m.insert k v).value.buckets.length := by
  obtain ⟨-, made⟩ := (insert_cases m k v).resolve_right (by simp [grows])
  rw [made, length_buckets_spread]
  exact m.policy.lt_bucketCount ((Bool.and_eq_true _ _ ▸ grows).2)

theorem Tabled.length_buckets_erase_lt (h : m.Tabled) (known : m.contains k = true)
    (few : (m.eraseInPlace k).sparse = true) :
    (m.erase k).value.buckets.length < m.buckets.length := by
  obtain ⟨-, -, made⟩ := ((erase_cases m k).resolve_left (by simp [known])).resolve_right
    (by simp [few])
  rw [made, length_buckets_spread, ← h.length_buckets_eraseInPlace k]
  exact m.policy.bucketCount_lt few

theorem spread_resizes {hash : κ → UInt64} {policy : ExactFactors} {count before after : Nat}
    {items : List (κ × ν)} {e : Event} (member : e ∈ (spread hash policy count items).events) :
    e.Resizes before after := by
  rw [spread_events] at member
  obtain ⟨_, _, rfl⟩ := TrieVector.rootGrew_of_mem_growths member
  trivial

theorem insert_resizes (m : BucketMap ExactFactors κ ν) (k : κ) (v : ν) :
    ∀ e ∈ (m.insert k v).events,
      e.Resizes m.buckets.length (m.insert k v).value.buckets.length := by
  cases grows : m.growsOn k with
  | false => simp [insert, grows]
  | true =>
    have larger := length_buckets_lt_insert grows v
    simp only [insert, grows, if_true, Logged.bind_events, Logged.bind_value, List.mem_append,
      List.mem_singleton] at larger ⊢
    rintro e (root | rfl)
    · exact spread_resizes root
    · exact ⟨rfl, rfl, larger⟩

theorem Tabled.erase_resizes (h : m.Tabled) (k : κ) : ∀ e ∈ (m.erase k).events,
    e.Resizes m.buckets.length (m.erase k).value.buckets.length := by
  cases known : m.contains k with
  | false => simp [erase, known]
  | true =>
    cases few : (m.eraseInPlace k).sparse with
    | false => simp [erase, known, few]
    | true =>
      have smaller := h.length_buckets_erase_lt known few
      have same := h.length_buckets_eraseInPlace k
      simp only [erase, known, few, if_true, Logged.bind_events, Logged.bind_value,
        List.mem_append, List.mem_singleton] at smaller ⊢
      rintro e (root | rfl)
      · exact spread_resizes root
      · exact ⟨same, rfl, smaller⟩

/-- An update that spreads a map anew changes the number of its buckets as it should, and
what it reports is this change. -/
structure Resized (m : BucketMap ExactFactors κ ν) : Prop where
  grown : ∀ k v, m.growsOn k = true → m.buckets.length < (m.insert k v).value.buckets.length
  shrunk : ∀ k, m.contains k = true → (m.eraseInPlace k).sparse = true →
    (m.erase k).value.buckets.length < m.buckets.length
  insert : ∀ k v, ∀ e ∈ (m.insert k v).events,
    e.Resizes m.buckets.length (m.insert k v).value.buckets.length
  erase : ∀ k, ∀ e ∈ (m.erase k).events,
    e.Resizes m.buckets.length (m.erase k).value.buckets.length

end BucketMap

/-- Factors of which the upper one is at least twice the lower one give every number of items
a number of buckets that fits, and every rebuilding of a map a direction. -/
theorem exact_sizes (upper lower : ℚ) (positive : 0 < lower) (twice : 2 * lower ≤ upper) :
    ∃ c : ExactFactors, (c.upper = upper ∧ c.lower = lower) ∧ (∀ items, c.Sizes items) ∧
      ∀ {κ ν : Type} [BEq κ] (hash : κ → UInt64) (m : BucketMap ExactFactors κ ν),
        m.Reachable hash c → m.Resized := by
  have accepted : LoadNumber.fault? upper lower = none :=
    LoadNumber.fault?_eq_none_iff.2 ⟨⟨by linarith, positive⟩, twice⟩
  refine ⟨⟨upper, lower, accepted⟩, ⟨rfl, rfl⟩, fun items => ExactFactors.sizes _ items, ?_⟩
  intro κ ν _ hash m reachable
  have tabled := reachable.tallied.tabled
  exact ⟨fun _ v grows => BucketMap.length_buckets_lt_insert grows v,
    fun _ known few => tabled.length_buckets_erase_lt known few, m.insert_resizes,
    tabled.erase_resizes⟩

theorem exact_sizes_halves :
    ((0 : ℚ) < 1 / 4 ∧ 2 * (1 / 4) ≤ (1 / 2 : ℚ)) ∧ ∃ c : ExactFactors,
      (c.upper = 1 / 2 ∧ c.lower = 1 / 4) ∧ (c.Sizes 1 ∧ bucketCount c 1 = 3) ∧
      let m : BucketMap ExactFactors Nat Nat := .empty (fun _ => 0) c
      (m.Reachable (fun _ => 0) c ∧ m.Resized) ∧ m.growsOn 7 = true ∧
        (m.insert 7 0).value.buckets.length = 3 := by
  have positive : (0 : ℚ) < 1 / 4 := by norm_num
  have twice : 2 * (1 / 4) ≤ (1 / 2 : ℚ) := by norm_num
  obtain ⟨c, ⟨upper, lower⟩, sizes, maps⟩ := exact_sizes (1 / 2) (1 / 4) positive twice
  have three : bucketCount c 1 = 3 := by
    have fewest : ⌈((1 : Nat) : ℚ) / (1 / 2)⌉₊ = 2 := by norm_num
    have middle : ⌊((1 : Nat) : ℚ) / ((1 / 2 + 1 / 4) / 2)⌋₊ = 2 := by norm_num
    have most : ⌊((1 : Nat) : ℚ) / (1 / 4)⌋₊ = 4 := by norm_num
    rw [(sizes 1).clamped, upper, lower, fewest, middle, most]
    rfl
  refine ⟨⟨positive, twice⟩, c, ⟨upper, lower⟩, ⟨sizes 1, three⟩, ?_⟩
  intro m
  have absent : m.contains 7 = false := by
    simp [(BucketMap.empty_wellFormed (fun _ : Nat => 0) c).contains_eq (fun _ _ _ => rfl),
      BucketMap.toList_empty, Bucket.contains, m]
  have one : m.buckets.length = 1 := congrArg Load.buckets (BucketMap.empty_load (fun _ => 0) c)
  have grows : m.growsOn 7 = true := by
    have full : needsGrow c 1 1 = true := by
      norm_num [needsGrow, LoadNumber.tooMany, LoadNumber.less, LoadNumber.ofCount, upper]
    rw [BucketMap.growsOn, absent, one]
    exact full
  obtain ⟨-, made⟩ := (BucketMap.insert_cases m 7 0).resolve_right (by simp [grows])
  refine ⟨⟨.empty, maps _ m .empty⟩, grows, ?_⟩
  rw [made, BucketMap.length_buckets_spread]
  exact three

end PersistentCollections
