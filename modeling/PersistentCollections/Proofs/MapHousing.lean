import PersistentCollections.BucketMap
import PersistentCollections.Proofs.BucketTable
import PersistentCollections.Proofs.VectorShape

/-! The shape of a map under any hash: every item in the bucket that its hash says, no key
twice in one bucket, no bucket kept without items, and the length counted right. An update
in place and a spread over new buckets both keep it. A hash that tells equal keys apart may
leave them in two buckets; when these are spread anew they may meet, and then one item is
left of the two. That the length is counted right holds whatever keys are taken for equal. -/

namespace PersistentCollections

/-! ### Spreading -/

namespace Spread

variable {κ ν : Type} [BEq κ] {hash : κ → UInt64} {s : Spread κ ν} {most : Nat}

theorem toList_add (hash : κ → UInt64) (s : Spread κ ν) (item : κ × ν) :
    (s.add hash item).buckets.toList = s.buckets.toList.modify
      ((hash item.1).toNat % s.buckets.toList.length) (Bucket.put (item.1, item.2)) :=
  Array.toList_modify

theorem length_add {b : Bucket κ ν} {item : κ × ν}
    (found : s.buckets.toList[(hash item.1).toNat % s.buckets.toList.length]? = some b) :
    (s.add hash item).length = if Bucket.contains b item.1 then s.length else s.length + 1 := by
  have read : s.buckets[(hash item.1).toNat % s.buckets.size]?.getD [] = b := by
    rw [← Array.getElem?_toList]
    exact congrArg (Option.getD · []) found
  rw [add, read]

@[simp] theorem size_addAll (hash : κ → UInt64) (s : Spread κ ν) (items : List (κ × ν)) :
    (s.addAll hash items).buckets.size = s.buckets.size := by
  induction items generalizing s with
  | nil => rfl
  | cons item rest ih =>
    change ((s.add hash item).addAll hash rest).buckets.size = _
    rw [ih, Spread.add, Array.size_modify]

structure Counted (s : Spread κ ν) (most : Nat) : Prop where
  pos : 0 < s.buckets.toList.length
  length : s.length = itemCount s.buckets.toList
  bound : s.length ≤ most

omit [BEq κ] in
theorem toList_empty (count : Nat) :
    (empty count : Spread κ ν).buckets.toList = List.replicate count [] :=
  Array.toList_replicate

omit [BEq κ] in
theorem empty_counted {count : Nat} (pos : 0 < count) : Counted (empty count : Spread κ ν) 0 := by
  refine ⟨?_, ?_, Nat.le_refl _⟩ <;> rw [toList_empty]
  · simpa using pos
  · rw [← length_flatten_eq_itemCount, List.flatten_replicate_nil]
    rfl

theorem Counted.add (h : Counted s most) (hash : κ → UInt64) (item : κ × ν) :
    Counted (s.add hash item) (most + 1) := by
  have bound := h.bound
  have found := List.getElem?_eq_getElem (Nat.mod_lt (hash item.1).toNat h.pos)
  refine ⟨?_, ?_, ?_⟩
  · rw [toList_add, List.length_modify]
    exact h.pos
  · rw [toList_add, itemCount_put found, length_add found, h.length]
  · rw [length_add found]
    split <;> omega

theorem Counted.addAll (h : Counted s most) (hash : κ → UInt64) (items : List (κ × ν)) :
    Counted (s.addAll hash items) (most + items.length) := by
  induction items generalizing s most with
  | nil => exact h
  | cons item rest ih =>
    have all := ih (h.add hash item)
    rwa [Nat.add_assoc, Nat.add_comm 1, ← List.length_cons] at all

theorem housed_addAll [EquivBEq κ] (h : Housed hash s.buckets.toList) (items : List (κ × ν)) :
    Housed hash (s.addAll hash items).buckets.toList := by
  induction items generalizing s with
  | nil => exact h
  | cons item rest ih =>
    refine ih (s := s.add hash item) ?_
    rw [toList_add]
    exact h.put item.1 item.2

end Spread

namespace BucketMap

variable {π κ ν : Type} {m : BucketMap π κ ν}

def table (m : BucketMap π κ ν) : List (Bucket κ ν) := m.buckets.toList.map Bucket.items

theorem toList_eq_table (m : BucketMap π κ ν) : m.toList = m.table.flatten := rfl

theorem empty_buckets (hash : κ → UInt64) (policy : π) :
    (empty hash policy : BucketMap π κ ν).buckets.WellFormed ∧
      (empty hash policy : BucketMap π κ ν).buckets.toList = [none] :=
  TrieVector.empty_wellFormed.append_eq [(none : Option (Bucket κ ν))]

theorem table_empty (hash : κ → UInt64) (policy : π) :
    (empty hash policy : BucketMap π κ ν).table = [[]] := by
  rw [table, (empty_buckets hash policy).2]
  rfl

theorem toList_empty (hash : κ → UInt64) (policy : π) :
    (empty hash policy : BucketMap π κ ν).toList = [] := by
  rw [toList_eq_table, table_empty]
  rfl

variable [BEq κ]

theorem contains_bucket (m : BucketMap π κ ν) (k : κ) :
    m.contains k = Bucket.contains (m.bucket (m.place k)) k :=
  (Association.contains_eq _ k).symm

structure Tabled (m : BucketMap π κ ν) : Prop where
  buckets : m.buckets.WellFormed
  pos : 0 < m.table.length

namespace Tabled

omit [BEq κ]

theorem table_length (h : m.Tabled) : m.table.length = m.buckets.length := by
  rw [table, List.length_map, h.buckets.length_toList]

theorem place_lt (h : m.Tabled) (k : κ) : m.place k < m.buckets.length := by
  rw [place, ← h.table_length]
  exact Nat.mod_lt _ h.pos

theorem bucket_eq (h : m.Tabled) (i : Nat) : m.bucket i = m.table[i]?.getD [] := by
  rw [bucket, h.buckets.get?_eq, table, List.getElem?_map]
  cases m.buckets.toList[i]? <;> rfl

theorem toList_eq (h : m.Tabled) :
    m.toList = (List.range m.buckets.length).flatMap m.bucket := by
  have table : m.table = (List.range m.buckets.length).map m.bucket := by
    ext1 i
    by_cases inside : i < m.buckets.length
    · have bound : i < m.table.length := by rwa [h.table_length]
      simp [h.bucket_eq, inside, bound]
    · simp [inside, h.table_length]
  rw [toList_eq_table, table, List.flatMap_def]

theorem own_bucket (h : m.Tabled) (k : κ) :
    m.table[(m.hash k).toNat % m.table.length]? = some (m.bucket (m.place k)) := by
  have inside : m.place k < m.table.length := h.table_length ▸ h.place_lt k
  rw [h.table_length, h.bucket_eq]
  change m.table[m.place k]? = _
  rw [List.getElem?_eq_getElem inside]
  rfl

theorem of_replace (h : m.Tabled) {k : κ} {f : Bucket κ ν → Bucket κ ν}
    {stored : Option (Bucket κ ν)} {w : BucketMap π κ ν}
    (items : Bucket.items stored = f (m.bucket (m.place k)))
    (buckets : w.buckets = m.buckets.replace (m.place k) stored) :
    w.Tabled ∧ w.table = m.table.modify ((m.hash k).toNat % m.table.length) f := by
  obtain ⟨wellFormed, written⟩ := h.buckets.replace_eq stored (h.place_lt k)
  have same : (m.hash k).toNat % m.table.length = m.place k := by rw [h.table_length, place]
  have own := h.own_bucket k
  have table : w.table = m.table.modify ((m.hash k).toNat % m.table.length) f := by
    rw [BucketMap.table, buckets, written, List.map_set, items, List.modify_eq_set, own, same]
    rfl
  refine ⟨⟨buckets ▸ wellFormed, ?_⟩, table⟩
  rw [table, List.length_modify]
  exact h.pos

end Tabled

theorem Tabled.putInPlace_sizes (h : m.Tabled) (k : κ) (v : ν) :
    (m.putInPlace k v).buckets.length = m.buckets.length ∧
      (m.putInPlace k v).length = if m.contains k then m.length else m.length + 1 := by
  rw [contains_bucket]
  exact ⟨h.buckets.length_replace _ (h.place_lt k), rfl⟩

theorem Tabled.length_buckets_eraseInPlace (h : m.Tabled) (k : κ) :
    (m.eraseInPlace k).buckets.length = m.buckets.length :=
  h.buckets.length_replace _ (h.place_lt k)

/-- What holds of a map whatever keys are taken for equal. -/
structure Tallied (m : BucketMap π κ ν) : Prop where
  tabled : m.Tabled
  length : m.length = itemCount m.table

namespace Tallied

omit [BEq κ] in
theorem length_toList (h : m.Tallied) : m.toList.length = m.length := by
  rw [toList_eq_table, length_flatten_eq_itemCount, ← h.length]

omit [BEq κ] in
theorem empty (hash : κ → UInt64) (policy : π) : (empty hash policy : BucketMap π κ ν).Tallied := by
  refine ⟨⟨(empty_buckets hash policy).1, ?_⟩, ?_⟩ <;> rw [table_empty]
  · exact Nat.one_pos
  · rfl

theorem putInPlace (h : m.Tallied) (k : κ) (v : ν) :
    (m.putInPlace k v).Tallied ∧ (m.putInPlace k v).table =
      m.table.modify ((m.hash k).toNat % m.table.length) (Bucket.put (k, v)) := by
  obtain ⟨tabled, table⟩ :=
    h.tabled.of_replace (w := m.putInPlace k v) (f := Bucket.put (k, v)) rfl rfl
  refine ⟨⟨tabled, ?_⟩, table⟩
  rw [table, itemCount_put (h.tabled.own_bucket k), ← h.length]
  rfl

theorem eraseInPlace (h : m.Tallied) (k : κ) :
    (m.eraseInPlace k).Tallied ∧ (m.eraseInPlace k).table =
      m.table.modify ((m.hash k).toNat % m.table.length) (Bucket.erase · k) := by
  obtain ⟨tabled, table⟩ := h.tabled.of_replace (w := m.eraseInPlace k) (f := (Bucket.erase · k))
    (Bucket.items_stored _) rfl
  have fewer : (Bucket.erase (m.bucket (m.place k)) k).length ≤ (m.bucket (m.place k)).length :=
    List.length_filter_le _ _
  have all := itemCount_modify (h.tabled.own_bucket k) (Bucket.erase · k)
  refine ⟨⟨tabled, ?_⟩, table⟩
  change m.length - ((m.bucket (m.place k)).length - _) = _
  rw [h.length, table]
  omega

end Tallied

/-- What holds of a map under any hash. -/
structure Orderly (m : BucketMap π κ ν) : Prop where
  buckets : m.buckets.WellFormed
  housed : Housed m.hash m.table
  present : ∀ b, some b ∈ m.buckets.toList → b ≠ []
  length : m.length = itemCount m.table

theorem empty_orderly (hash : κ → UInt64) (policy : π) :
    (empty hash policy : BucketMap π κ ν).Orderly := by
  obtain ⟨buckets, one⟩ := empty_buckets (κ := κ) (ν := ν) hash policy
  refine ⟨buckets, ?_, fun b member => ?_, ?_⟩
  · rw [table_empty]
    exact replicate_housed hash Nat.one_pos
  · rw [one] at member
    simp at member
  · rw [table_empty]
    rfl

namespace Orderly

theorem tabled (h : m.Orderly) : m.Tabled := ⟨h.buckets, h.housed.pos⟩

theorem tallied (h : m.Orderly) : m.Tallied := ⟨h.tabled, h.length⟩

theorem buckets_pos (h : m.Orderly) : 0 < m.buckets.length :=
  h.tabled.table_length ▸ h.housed.pos

theorem length_toList (h : m.Orderly) : m.toList.length = m.length := h.tallied.length_toList

theorem mem_bucket (h : m.Orderly) {item : κ × ν} (member : item ∈ m.toList) :
    item ∈ m.bucket (m.place item.1) := by
  rw [toList_eq_table] at member
  obtain ⟨b, inTable, inBucket⟩ := List.mem_flatten.1 member
  obtain ⟨i, found⟩ := List.mem_iff_getElem?.1 inTable
  have own := h.tabled.own_bucket item.1
  rw [h.housed.place i b found item inBucket, found] at own
  exact Option.some.inj own ▸ inBucket

theorem bucket_distinct (h : m.Orderly) (k : κ) : Association.Distinct (m.bucket (m.place k)) :=
  h.housed.distinct _ (List.mem_of_getElem? (h.tabled.own_bucket k))

theorem of_replace (h : m.Orderly) {k : κ} {f : Bucket κ ν → Bucket κ ν}
    {stored : Option (Bucket κ ν)} {w : BucketMap π κ ν} (some_items : stored ≠ some [])
    (buckets : w.buckets = m.buckets.replace (m.place k) stored) (hash : w.hash = m.hash)
    (housed : Housed m.hash (m.table.modify ((m.hash k).toNat % m.table.length) f))
    (tallied : w.Tallied ∧ w.table = m.table.modify ((m.hash k).toNat % m.table.length) f) :
    w.Orderly ∧ w.table = m.table.modify ((m.hash k).toNat % m.table.length) f := by
  obtain ⟨⟨tabled, length⟩, table⟩ := tallied
  refine ⟨⟨tabled.buckets, ?_, fun b member => ?_, length⟩, table⟩
  · rw [hash, table]
    exact housed
  · rw [buckets, (h.buckets.replace_eq stored (h.tabled.place_lt k)).2] at member
    rcases List.mem_or_eq_of_mem_set member with old | new
    · exact h.present b old
    · rintro rfl
      exact some_items new.symm

theorem eraseInPlace (h : m.Orderly) (k : κ) :
    (m.eraseInPlace k).Orderly ∧ (m.eraseInPlace k).table =
      m.table.modify ((m.hash k).toNat % m.table.length) (Bucket.erase · k) := by
  have stored : Bucket.stored (Bucket.erase (m.bucket (m.place k)) k) ≠ some [] := by
    cases Bucket.erase (m.bucket (m.place k)) k <;> simp [Bucket.stored]
  exact h.of_replace stored rfl rfl (h.housed.erase k) (h.tallied.eraseInPlace k)

theorem length_pos (h : m.Orderly) {k : κ} (known : m.contains k = true) : 0 < m.length := by
  rw [contains_bucket] at known
  obtain ⟨item, member, _⟩ := List.any_eq_true.1 known
  have inTable : m.bucket (m.place k) ∈ m.table := List.mem_of_getElem? (h.tabled.own_bucket k)
  rw [← h.length_toList]
  exact List.length_pos_of_mem (List.mem_flatten_of_mem inTable member)

variable [EquivBEq κ]

theorem putInPlace (h : m.Orderly) (k : κ) (v : ν) :
    (m.putInPlace k v).Orderly ∧ (m.putInPlace k v).table =
      m.table.modify ((m.hash k).toNat % m.table.length) (Bucket.put (k, v)) := by
  have stored : some (Bucket.put (k, v) (m.bucket (m.place k))) ≠ some [] := by
    cases m.bucket (m.place k) with
    | nil => simp [Bucket.put]
    | cons first rest =>
      rw [Bucket.put]
      split <;> simp
  exact h.of_replace stored rfl rfl (h.housed.put k v) (h.tallied.putInPlace k v)

theorem eraseInPlace_sizes (h : m.Orderly) {k : κ} (known : m.contains k = true) :
    (m.eraseInPlace k).buckets.length = m.buckets.length ∧
      (m.eraseInPlace k).length = m.length - 1 := by
  have count : (m.bucket (m.place k)).length = (Bucket.erase (m.bucket (m.place k)) k).length + _ :=
    (h.bucket_distinct k).length_erase k
  rw [← contains_bucket, known, if_pos rfl] at count
  refine ⟨h.tabled.length_buckets_eraseInPlace k, ?_⟩
  change m.length - ((m.bucket (m.place k)).length - _) = _
  rw [count, Nat.add_sub_cancel_left]

end Orderly

/-! ### The operations -/

variable [LoadPolicy π] {hash : κ → UInt64}

theorem insert_cases (m : BucketMap π κ ν) (k : κ) (v : ν) :
    (m.growsOn k = true ∧ (m.insert k v).value =
      (spread m.hash m.policy (m.length + 1) (m.toList ++ [(k, v)])).value) ∨
    (m.growsOn k = false ∧ (m.insert k v).value = m.putInPlace k v) := by
  unfold insert
  cases grows : m.growsOn k
  · exact .inr ⟨rfl, rfl⟩
  · exact .inl ⟨rfl, rfl⟩

theorem erase_cases (m : BucketMap π κ ν) (k : κ) :
    (m.contains k = false ∧ (m.erase k).value = m) ∨
    (m.contains k = true ∧ (m.eraseInPlace k).sparse = true ∧ (m.erase k).value =
      (spread m.hash m.policy (m.eraseInPlace k).length (m.eraseInPlace k).toList).value) ∨
    (m.contains k = true ∧ (m.eraseInPlace k).sparse = false ∧
      (m.erase k).value = m.eraseInPlace k) := by
  unfold erase
  cases found : m.contains k
  · exact .inl ⟨rfl, rfl⟩
  · cases sparse : (m.eraseInPlace k).sparse
    · exact .inr (.inr ⟨rfl, rfl, by simp [sparse]⟩)
    · exact .inr (.inl ⟨rfl, rfl, by simp [sparse]; rfl⟩)

theorem insert_settings (m : BucketMap π κ ν) (k : κ) (v : ν) :
    (m.insert k v).value.hash = m.hash ∧ (m.insert k v).value.policy = m.policy := by
  rcases insert_cases m k v with ⟨_, made⟩ | ⟨_, made⟩ <;> rw [made] <;> exact ⟨rfl, rfl⟩

theorem erase_settings (m : BucketMap π κ ν) (k : κ) :
    (m.erase k).value.hash = m.hash ∧ (m.erase k).value.policy = m.policy := by
  rcases erase_cases m k with ⟨_, made⟩ | ⟨_, _, made⟩ | ⟨_, _, made⟩ <;> rw [made] <;>
    exact ⟨rfl, rfl⟩

theorem insertAll_settings (m : BucketMap π κ ν) (items : List (κ × ν)) :
    (m.insertAll items).value.hash = m.hash ∧ (m.insertAll items).value.policy = m.policy := by
  rw [BucketMap.insertAll, Logged.fold_value]
  induction items generalizing m with
  | nil => exact ⟨rfl, rfl⟩
  | cons item rest ih =>
    obtain ⟨hash, policy⟩ := insert_settings m item.1 item.2
    rw [List.foldl_cons, (ih _).1, (ih _).2]
    exact ⟨hash, policy⟩

theorem table_spread (hash : κ → UInt64) (policy : π) (count : Nat) (items : List (κ × ν)) :
    (spread hash policy count items).value.table =
      ((Spread.empty (bucketCount policy count)).addAll hash items).buckets.toList := by
  obtain ⟨_, stored⟩ := TrieVector.ofList_eq
    (((Spread.empty (bucketCount policy count)).addAll hash items).buckets.toList.map Bucket.stored)
  change (TrieVector.ofList _).value.toList.map Bucket.items = _
  rw [stored, List.map_map]
  exact (List.map_congr_left fun b _ => Bucket.items_stored b).trans (List.map_id _)

/-- Where equal keys meet, fewer items are left than were spread. -/
theorem spread_tallied (hash : κ → UInt64) (policy : π) (count : Nat) (items : List (κ × ν)) :
    (spread hash policy count items).value.Tallied ∧
      (spread hash policy count items).value.length ≤ items.length := by
  let s := (Spread.empty (bucketCount policy count)).addAll hash items
  have counted : s.Counted (0 + items.length) :=
    (Spread.empty_counted (bucketCount_pos policy count)).addAll hash items
  obtain ⟨wellFormed, _⟩ := TrieVector.ofList_eq (s.buckets.toList.map Bucket.stored)
  have table : (spread hash policy count items).value.table = s.buckets.toList :=
    table_spread hash policy count items
  refine ⟨⟨⟨wellFormed, ?_⟩, ?_⟩, Nat.zero_add items.length ▸ counted.bound⟩
  · rw [table]
    exact counted.pos
  · rw [table, ← counted.length]
    rfl

theorem Tallied.insert (h : m.Tallied) (k : κ) (v : ν) : (m.insert k v).value.Tallied := by
  rcases insert_cases m k v with ⟨_, made⟩ | ⟨_, made⟩ <;> rw [made]
  · exact (spread_tallied _ _ _ _).1
  · exact (h.putInPlace k v).1

theorem Tallied.erase (h : m.Tallied) (k : κ) : (m.erase k).value.Tallied := by
  rcases erase_cases m k with ⟨_, made⟩ | ⟨_, _, made⟩ | ⟨_, _, made⟩ <;> rw [made]
  · exact h
  · exact (spread_tallied _ _ _ _).1
  · exact (h.eraseInPlace k).1

theorem Tallied.length_insert_le (h : m.Tallied) (k : κ) (v : ν) :
    (m.insert k v).value.length ≤ m.length + 1 := by
  rcases insert_cases m k v with ⟨_, made⟩ | ⟨_, made⟩ <;> rw [made]
  · have fewer := (spread_tallied m.hash m.policy (m.length + 1) (m.toList ++ [(k, v)])).2
    rwa [List.length_append, h.length_toList] at fewer
  · rw [(h.tabled.putInPlace_sizes k v).2]
    split <;> omega

theorem Tallied.length_erase_le (h : m.Tallied) (k : κ) : (m.erase k).value.length ≤ m.length := by
  have fewer : (m.eraseInPlace k).length ≤ m.length := Nat.sub_le _ _
  rcases erase_cases m k with ⟨_, made⟩ | ⟨_, _, made⟩ | ⟨_, _, made⟩
  · exact Nat.le_of_eq (congrArg BucketMap.length made)
  · have left := (spread_tallied m.hash m.policy (m.eraseInPlace k).length
      (m.eraseInPlace k).toList).2
    rw [(h.eraseInPlace k).1.length_toList] at left
    rw [made]
    exact Nat.le_trans left fewer
  · rw [made]
    exact fewer

variable [EquivBEq κ]

theorem Orderly.sparse_eraseInPlace (h : m.Orderly) {k : κ} (known : m.contains k = true) :
    (m.eraseInPlace k).sparse = needsShrink m.policy (m.length - 1) m.buckets.length := by
  obtain ⟨buckets, length⟩ := h.eraseInPlace_sizes known
  rw [BucketMap.sparse, buckets, length]
  rfl

theorem spread_orderly (hash : κ → UInt64) (policy : π) (count : Nat) (items : List (κ × ν)) :
    (spread hash policy count items).value.Orderly ∧
      (spread hash policy count items).value.length ≤ items.length := by
  let s := (Spread.empty (bucketCount policy count)).addAll hash items
  obtain ⟨⟨tabled, length⟩, bound⟩ := spread_tallied hash policy count items
  obtain ⟨_, stored⟩ := TrieVector.ofList_eq (s.buckets.toList.map Bucket.stored)
  refine ⟨⟨tabled.buckets, ?_, fun b member => ?_, length⟩, bound⟩
  · have start : Housed hash (Spread.empty (bucketCount policy count)).buckets.toList :=
      Spread.toList_empty (κ := κ) (ν := ν) _ ▸ replicate_housed hash (bucketCount_pos policy count)
    rw [table_spread]
    exact Spread.housed_addAll start items
  · have member : some b ∈ s.buckets.toList.map Bucket.stored := stored ▸ member
    obtain ⟨c, _, kept⟩ := List.mem_map.1 member
    rintro rfl
    cases c <;> simp [Bucket.stored] at kept

theorem Orderly.insert (h : m.Orderly) (k : κ) (v : ν) : (m.insert k v).value.Orderly := by
  rcases insert_cases m k v with ⟨_, made⟩ | ⟨_, made⟩ <;> rw [made]
  · exact (spread_orderly _ _ _ _).1
  · exact (h.putInPlace k v).1

theorem Orderly.erase (h : m.Orderly) (k : κ) : (m.erase k).value.Orderly := by
  rcases erase_cases m k with ⟨_, made⟩ | ⟨_, _, made⟩ | ⟨_, _, made⟩ <;> rw [made]
  · exact h
  · exact (spread_orderly _ _ _ _).1
  · exact (h.eraseInPlace k).1

theorem Orderly.insertAll (h : m.Orderly) (items : List (κ × ν)) :
    (m.insertAll items).value.Orderly := by
  rw [BucketMap.insertAll, Logged.fold_value]
  induction items generalizing m with
  | nil => exact h
  | cons item rest ih => exact ih (h.insert item.1 item.2)

end BucketMap

end PersistentCollections
