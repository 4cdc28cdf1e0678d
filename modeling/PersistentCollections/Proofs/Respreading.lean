import PersistentCollections.Proofs.InsertionOrder
import PersistentCollections.Proofs.MapEquality

/-! Spreading once more. Items that were spread over buckets and are then listed bucket by bucket
fall into the same buckets in the same order, if the buckets are as many. So a map is made again
of its own items, and of items that equal them one by one it is made up to equality. -/

namespace PersistentCollections

open Association (Distinct)

variable {π κ ν : Type} {hash : κ → UInt64} {policy : π} {items : List (κ × ν)}

theorem share_flatten (hash : κ → UInt64) (items : List (κ × ν)) {count i : Nat}
    (inside : i < count) :
    share hash count (distribute hash count items).flatten i = share hash count items i := by
  have own : (fun j => (share hash count items j).filter fun item =>
      (hash item.1).toNat % count == i) =
        fun j => if j = i then share hash count items i else [] := by
    funext j
    split
    · rename_i same
      rw [same]
      exact List.filter_eq_self.2 fun item member => (List.mem_filter.1 member).2
    · rename_i other
      refine List.filter_eq_nil_iff.2 fun item member => ?_
      have place := (List.mem_filter.1 member).2
      simp only [beq_iff_eq] at place ⊢
      exact fun same => other (place.symm.trans same)
  rw [distribute, ← List.flatMap_def, share, List.filter_flatMap, own,
    BucketMap.flatMap_range_ite, if_pos inside]

theorem distribute_flatten (hash : κ → UInt64) (count : Nat) (items : List (κ × ν)) :
    distribute hash count (distribute hash count items).flatten = distribute hash count items :=
  List.map_congr_left fun _ member => share_flatten hash items (List.mem_range.1 member)

namespace BucketMap

variable [BEq κ] [EquivBEq κ] [LoadPolicy π]

theorem ofList_eq (lawful : Respects hash) (policy : π) (distinct : Distinct items) :
    (ofList hash policy items).value =
      ⟨(TrieVector.ofList ((distribute hash (bucketCount policy items.length) items).map
        Bucket.stored)).value, items.length, hash, policy⟩ := by
  let s := (Spread.empty (bucketCount policy items.length)).addAll hash items
  have buckets : s.buckets.toList = distribute hash (bucketCount policy items.length) items := by
    have start := Spread.toList_empty (κ := κ) (ν := ν) (bucketCount policy items.length)
    rw [← distribute_nil hash] at start
    rw [Spread.addAll_distributes lawful start]
    exact congrArg _ (Bucket.gather_of_distinct distinct)
  have length : s.length = items.length :=
    ((ofList_represents lawful policy items).perm distinct.insertAll_nil).length
  rw [← buckets, ← length]
  rfl

theorem ofList_toList (lawful : Respects hash) (policy : π) (distinct : Distinct items) :
    (ofList hash policy (ofList hash policy items).value.toList).value =
      (ofList hash policy items).value := by
  have form := (ofList_represents lawful policy items).perm distinct.insertAll_nil
  have listed : (ofList hash policy items).value.toList =
      (distribute hash (bucketCount policy items.length) items).flatten := by
    rw [toList_eq_table, ofList, table_spread_eq lawful, Bucket.gather_of_distinct distinct]
  rw [ofList_eq lawful policy (distinct.perm form.items.symm), form.items.length_eq, listed,
    distribute_flatten, ← ofList_eq lawful policy distinct]

end BucketMap

/-! ### Items that stand in for others -/

structure StandsFor [BEq κ] [BEq ν] (item other : κ × ν) : Prop where
  key : (other.1 == item.1) = true
  value : (item.2 == other.2) = true ∧ (other.2 == item.2) = true

theorem exists_of_forall₂ {α β : Type} {R : α → β → Prop} {xs : List α} {ys : List β}
    (h : List.Forall₂ R xs ys) : ∀ y ∈ ys, ∃ x ∈ xs, R x y := by
  induction h with
  | nil => simp
  | cons first _ ih =>
    rintro y (_ | ⟨_, member⟩)
    · exact ⟨_, List.mem_cons_self, first⟩
    · obtain ⟨x, inside, related⟩ := ih y member
      exact ⟨x, List.mem_cons_of_mem _ inside, related⟩

variable [BEq κ] [EquivBEq κ] [BEq ν]

theorem distinct_of_standsFor {others : List (κ × ν)} (h : List.Forall₂ StandsFor items others)
    (distinct : Distinct items) : Distinct others := by
  induction h with
  | nil => exact .nil
  | @cons item other items others first rest ih =>
    obtain ⟨apart, distinct⟩ := List.pairwise_cons.1 distinct
    refine List.pairwise_cons.2 ⟨fun late member => ?_, ih distinct⟩
    obtain ⟨early, inside, same⟩ := exists_of_forall₂ rest late member
    rw [BEq.congr_left first.key, BEq.congr_right same.key]
    exact apart early inside

namespace BucketMap

variable [LoadPolicy π] {m w : BucketMap π κ ν} {others : List (κ × ν)}

/-- A map made anew of the items that stand for those of another one. -/
structure Remade (hash : κ → UInt64) (policy : π) (m : BucketMap π κ ν) (others : List (κ × ν))
    (w : BucketMap π κ ν) : Prop where
  equal : w.equal m = true ∧ m.equal w = true
  length : w.length = m.length
  buckets : w.buckets.length = bucketCount policy m.length
  items : w.toList.Perm others
  again : (ofList hash policy w.toList).value = w

theorem ofList_remade (lawful : Respects hash) (policy : π) (hm : m.Lawful)
    (h : List.Forall₂ StandsFor m.toList others) :
    Remade hash policy m others (ofList hash policy others).value := by
  have distinct := distinct_of_standsFor h hm.represents.distinct
  have form := (ofList_represents lawful policy others).perm distinct.insertAll_nil
  have count : others.length = m.length := by rw [← h.length_eq, hm.wellFormed.length_toList]
  have buckets : (ofList hash policy others).value.buckets.length =
      bucketCount policy m.length := by
    rw [ofList, length_buckets_spread, count]
  have again := ofList_toList lawful policy distinct
  generalize (ofList hash policy others).value = w at *
  have made : w.Lawful := ⟨form.wellFormed, form.hash_eq ▸ lawful⟩
  have length : w.length = m.length := form.length.trans count
  refine ⟨⟨?_, ?_⟩, length, buckets, form.items, again⟩
  · refine equal_iff.2 ⟨length, fun other member => ?_⟩
    obtain ⟨item, inside, same⟩ := exists_of_forall₂ h other (form.items.mem_iff.1 member)
    refine ⟨item.2, ?_, same.value.1⟩
    rw [hm.get?_congr same.key]
    exact hm.represents.get?_of_mem inside
  · refine equal_iff.2 ⟨length.symm, fun item member => ?_⟩
    obtain ⟨other, inside, same⟩ := exists_of_forall₂ h.flip item member
    refine ⟨other.2, ?_, same.value.2⟩
    rw [made.get?_congr (BEq.symm same.key)]
    exact form.get?_of_mem inside

end BucketMap

end PersistentCollections
