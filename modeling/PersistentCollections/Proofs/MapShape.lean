import PersistentCollections.Proofs.MapHousing

/-! The representation of a map whose hash respects the equality of keys: every item in the
bucket of its key, no key twice, no bucket kept without items, and the length counted right.
An update in place and a spread over new buckets both keep it, and both do to the items what
is done to an association list. -/

namespace PersistentCollections

/-! ### Spreading -/

namespace Spread

variable {κ ν : Type} [BEq κ] {hash : κ → UInt64} {s : Spread κ ν} {items : List (κ × ν)}

/-- The buckets hold these items, in some order. -/
structure Holds (hash : κ → UInt64) (s : Spread κ ν) (items : List (κ × ν)) : Prop where
  placed : Placed hash s.buckets.toList
  items : s.buckets.toList.flatten.Perm items

theorem empty_holds {count : Nat} (pos : 0 < count) :
    Holds hash (empty count : Spread κ ν) [] := by
  refine ⟨?_, ?_⟩ <;> rw [toList_empty]
  · exact replicate_placed hash pos
  · rw [List.flatten_replicate_nil]

variable [EquivBEq κ]

theorem Holds.add (h : Holds hash s items) (lawful : Respects hash) (item : κ × ν) :
    Holds hash (s.add hash item) (Association.insert items item.1 item.2) := by
  refine ⟨?_, ?_⟩ <;> rw [toList_add]
  · exact h.placed.put lawful item.1 item.2
  · exact (h.placed.put_flatten lawful item.1 item.2).trans (Association.insert_perm h.items)

theorem Holds.addAll (h : Holds hash s items) (lawful : Respects hash) (more : List (κ × ν)) :
    Holds hash (s.addAll hash more) (Association.insertAll items more) := by
  induction more generalizing s items with
  | nil => exact h
  | cons item rest ih => exact ih (h.add lawful item)

end Spread

namespace BucketMap

variable {π κ ν : Type} [BEq κ] {m : BucketMap π κ ν}

structure WellFormed (m : BucketMap π κ ν) : Prop where
  buckets : m.buckets.WellFormed
  placed : Placed m.hash m.table
  present : ∀ b, some b ∈ m.buckets.toList → b ≠ []
  length : m.length = itemCount m.table

theorem Orderly.wellFormed (h : m.Orderly) (distinct : Association.Distinct m.toList) :
    m.WellFormed :=
  ⟨h.buckets, h.housed.placed distinct, h.present, h.length⟩

theorem empty_wellFormed (hash : κ → UInt64) (policy : π) :
    (empty hash policy : BucketMap π κ ν).WellFormed := by
  apply (empty_orderly hash policy).wellFormed
  rw [toList_empty]
  exact .nil

namespace WellFormed

theorem orderly (h : m.WellFormed) : m.Orderly :=
  ⟨h.buckets, h.placed.housed, h.present, h.length⟩

theorem tabled (h : m.WellFormed) : m.Tabled := h.orderly.tabled

theorem length_toList (h : m.WellFormed) : m.toList.length = m.length := h.orderly.length_toList

theorem eraseInPlace_eq (h : m.WellFormed) (lawful : Respects m.hash) (k : κ) :
    (m.eraseInPlace k).WellFormed ∧
      (m.eraseInPlace k).toList = Association.erase m.toList k := by
  obtain ⟨orderly, table⟩ := h.orderly.eraseInPlace k
  have items : (m.eraseInPlace k).toList = Association.erase m.toList k := by
    rw [toList_eq_table, table, h.placed.erase_flatten lawful, toList_eq_table]
  exact ⟨orderly.wellFormed (items ▸ Association.distinct_erase h.placed.distinct), items⟩

variable [EquivBEq κ]

theorem find?_eq (h : m.WellFormed) (lawful : Respects m.hash) (k : κ) :
    m.find? k = Association.find? m.toList k := by
  rw [toList_eq_table, ← h.placed.find?_bucket lawful (h.tabled.own_bucket k)]
  rfl

theorem contains_eq (h : m.WellFormed) (lawful : Respects m.hash) (k : κ) :
    m.contains k = Bucket.contains m.toList k := by
  rw [contains, h.find?_eq lawful, Association.contains_eq]

theorem putInPlace_eq (h : m.WellFormed) (lawful : Respects m.hash) (k : κ) (v : ν) :
    (m.putInPlace k v).WellFormed ∧
      (m.putInPlace k v).toList.Perm (Association.insert m.toList k v) := by
  obtain ⟨orderly, table⟩ := h.orderly.putInPlace k v
  have items : (m.putInPlace k v).toList.Perm (Association.insert m.toList k v) := by
    rw [toList_eq_table, table, toList_eq_table]
    exact h.placed.put_flatten lawful k v
  have distinct : Association.Distinct (Association.insert m.toList k v) :=
    Association.distinct_insert h.placed.distinct
  exact ⟨orderly.wellFormed (distinct.perm items.symm), items⟩

end WellFormed

/-! ### The operations -/

variable [LoadPolicy π] {hash : κ → UInt64} [EquivBEq κ]

theorem spread_eq (lawful : Respects hash) (policy : π) (count : Nat) (items : List (κ × ν)) :
    (spread hash policy count items).value.WellFormed ∧
      (spread hash policy count items).value.toList.Perm (Association.insertAll [] items) := by
  let s := (Spread.empty (bucketCount policy count)).addAll hash items
  have holds : s.Holds hash (Association.insertAll [] items) :=
    (Spread.empty_holds (bucketCount_pos policy count)).addAll lawful items
  have table : (spread hash policy count items).value.toList = s.buckets.toList.flatten :=
    congrArg List.flatten (table_spread hash policy count items)
  refine ⟨(spread_orderly hash policy count items).1.wellFormed ?_, ?_⟩ <;> rw [table]
  · exact holds.placed.distinct
  · exact holds.items

theorem spread_self (h : m.WellFormed) (lawful : Respects hash) (policy : π) (count : Nat) :
    (spread hash policy count m.toList).value.toList.Perm m.toList :=
  (spread_eq lawful policy count m.toList).2.trans h.placed.distinct.insertAll_nil

theorem WellFormed.insert_eq (h : m.WellFormed) (lawful : Respects m.hash) (k : κ) (v : ν) :
    (m.insert k v).value.WellFormed ∧
      (m.insert k v).value.toList.Perm (Association.insert m.toList k v) := by
  rcases insert_cases m k v with ⟨_, made⟩ | ⟨_, made⟩ <;> rw [made]
  · -- The new item is spread behind the old ones, and those have no key twice.
    obtain ⟨wellFormed, items⟩ := spread_eq lawful m.policy (m.length + 1) (m.toList ++ [(k, v)])
    have again := h.placed.distinct.insertAll_nil
    refine ⟨wellFormed, items.trans ?_⟩
    rw [Association.insertAll, List.foldl_append]
    exact Association.insert_perm again
  · exact h.putInPlace_eq lawful k v

theorem WellFormed.erase_eq (h : m.WellFormed) (lawful : Respects m.hash) (k : κ) :
    (m.erase k).value.WellFormed ∧
      (m.erase k).value.toList.Perm (Association.erase m.toList k) := by
  obtain ⟨wellFormed, items⟩ := h.eraseInPlace_eq lawful k
  rw [← items]
  rcases erase_cases m k with ⟨absent, made⟩ | ⟨_, _, made⟩ | ⟨_, _, made⟩ <;> rw [made]
  · refine ⟨h, ?_⟩
    rw [h.contains_eq lawful] at absent
    have none : ∀ item ∈ m.toList, (item.1 == k) = false := by simpa [Bucket.contains] using absent
    rw [items, Association.erase_eq_self none]
  · exact ⟨(spread_eq lawful m.policy _ _).1, spread_self wellFormed lawful m.policy _⟩
  · exact ⟨wellFormed, .refl _⟩

end BucketMap

end PersistentCollections
