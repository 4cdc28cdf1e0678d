import PersistentCollections.Proofs.InsertionOrder
import PersistentCollections.Proofs.SetComparisons

/-! Set operations on one set and two second operands of the same elements, in the same
spellings. However many buckets the second operands have and in whatever order they list their
elements: an intersection or a difference asks them only what they contain, so it comes out the
same down to its buckets; a union and a symmetric difference take their elements in the order in
which they are listed, and no more than the order inside a bucket follows that. -/

namespace PersistentCollections

variable {π κ ν : Type} [BEq κ] [EquivBEq κ] [LoadPolicy π]

theorem BucketMap.ofList_sameBuckets {hash : κ → UInt64} (lawful : Respects hash) (policy : π)
    {items others : List (κ × ν)} (distinct : Association.Distinct items)
    (same : items.Perm others) :
    SameBuckets (ofList hash policy items) (ofList hash policy others) := by
  have first := ofList_represents lawful policy items
  have second := ofList_represents lawful policy others
  have contents : (Association.insertAll [] items).Perm (Association.insertAll [] others) :=
    distinct.insertAll_congr same
  have count : others.length = items.length := same.symm.length_eq
  have buckets : (ofList hash policy items).value.buckets.length =
      (ofList hash policy others).value.buckets.length := by
    rw [ofList, ofList, length_buckets_spread, length_buckets_spread, count]
  constructor
  case length => rw [first.length, second.length, contents.length_eq]
  case buckets => exact buckets
  case bucket =>
    exact first.wellFormed.bucket_perm second.wellFormed
      (first.hash_eq.trans second.hash_eq.symm) buckets
      (first.items.trans (contents.trans second.items.symm))
  case events => rw [ofList, ofList, spread_events, spread_events, count]

namespace BucketSet

variable {s w w' : BucketSet π κ}

/-- Two results that differ in no more than the order inside their buckets. -/
structure SameButForOrder (r r' : Logged (BucketSet π κ)) : Prop where
  hash : r.value.map.hash = r'.value.map.hash
  policy : r.value.map.policy = r'.value.map.policy
  map : BucketMap.SameBuckets (r.map BucketSet.map) (r'.map BucketSet.map)

theorem Apart.nodup {elements : List κ} (h : Apart elements) : elements.Nodup :=
  h.imp fun {a b} apart equal => by
    subst equal
    rw [BEq.rfl] at apart
    contradiction

omit [EquivBEq κ] in
theorem insertAll_under (s : BucketSet π κ) (elements : List κ) :
    (s.insertAll elements).map map = s.map.insertAll (items elements) := by
  induction elements generalizing s with
  | nil => rfl
  | cons a rest ih =>
    rw [insertAll, Logged.fold_cons, items, List.map_cons, BucketMap.insertAll, Logged.fold_cons]
    let reported := (s.map.insert a ()).events
    exact congrArg (fun r => (⟨r.value, reported ++ r.events⟩ : Logged (BucketMap π κ Unit)))
      (ih (s.insert a).value)

theorem insertAll_sameButForOrder (h : s.map.Lawful) {elements others : List κ}
    (apart : Apart elements) (same : elements.Perm others) :
    SameButForOrder (s.insertAll elements) (s.insertAll others) := by
  have form : BucketMap.Represents s.map.hash s.map.policy s.map s.map.toList :=
    ⟨h.wellFormed, rfl, rfl, .refl _⟩
  have first := form.insertAll h.respects (items elements)
  have second := form.insertAll h.respects (items others)
  rw [items, ← insertAll_map] at first second
  constructor
  case hash => rw [first.hash_eq, second.hash_eq]
  case policy => rw [first.policy_eq, second.policy_eq]
  case map =>
    rw [insertAll_under, insertAll_under]
    exact form.insertAll_sameBuckets h.respects (distinct_items.2 apart) (same.map _)

theorem rebuild_sameButForOrder (h : s.map.Lawful) {elements others : List κ}
    (apart : Apart elements) (same : elements.Perm others) :
    SameButForOrder (s.rebuild elements) (s.rebuild others) :=
  ⟨rfl, rfl, BucketMap.ofList_sameBuckets h.respects s.map.policy (distinct_items.2 apart)
    (same.map _)⟩

namespace Made

theorem represents (h : s.Made) : Represents s.map.hash s.map.policy s s.toList :=
  ⟨h.lawful.wellFormed, rfl, rfl, .refl _⟩

variable (hw : w.Made) (hw' : w'.Made) (same : ∀ a, a ∈ w.toList ↔ a ∈ w'.toList)

include hw hw' same

theorem toList_perm : w.toList.Perm w'.toList :=
  (List.perm_ext_iff_of_nodup hw.represents.apart.nodup hw'.represents.apart.nodup).2 same

theorem contains_same : w.contains = w'.contains := by
  funext x
  rw [contains_toList hw.lawful, contains_toList hw'.lawful, (hw.toList_perm hw' same).any_eq]

end Made

/-- What a second operand has to do with the results: only the elements that it holds. -/
structure OperandsAlike (s w w' : BucketSet π κ) : Prop where
  intersection : s.intersection w = s.intersection w'
  difference : s.difference w = s.difference w'
  union : SameButForOrder (s.union w) (s.union w')
  symmetricDifference : SameButForOrder (s.symmetricDifference w) (s.symmetricDifference w')

/-- Two second operands with the same elements, whatever their hashes, policies and histories. -/
theorem operand_layout_irrelevant (hs : s.Made) (hw : w.Made) (hw' : w'.Made)
    (same : ∀ a, a ∈ w.toList ↔ a ∈ w'.toList) : OperandsAlike s w w' := by
  have listed := hw.toList_perm hw' same
  have asked := hw.contains_same hw' same
  have kept : s.without w = s.without w' := by rw [without, without, asked]
  constructor
  case intersection => rw [BucketSet.intersection, BucketSet.intersection, asked]
  case difference => rw [BucketSet.difference, BucketSet.difference, kept]
  case union => exact insertAll_sameButForOrder hs.lawful hw.represents.apart listed
  case symmetricDifference =>
    have apart := hs.represents.withouts_apart hw.represents hw.lawful.respects
    have others : (s.without w ++ w.without s).Perm (s.without w' ++ w'.without s) :=
      kept ▸ (listed.filter _).append_left _
    exact rebuild_sameButForOrder hs.lawful apart others

/-- The second operands have their words in one bucket in the order in which they were given, or
wherever their checksums say. -/
theorem operand_layout_irrelevant_caseless :
    let s := (ofList crc32Of LoadFactors.default [Caseless.mk "Ab", ⟨"d"⟩]).value
    let w := (ofList (fun _ => 0) LoadFactors.default [Caseless.mk "aB", ⟨"c"⟩]).value
    let w' := (ofList crc32Of (LoadFactors.mk 4 1) [Caseless.mk "c", ⟨"aB"⟩]).value
    s.Made ∧ w.Made ∧ w'.Made ∧ (∀ a, a ∈ w.toList ↔ a ∈ w'.toList) ∧
      s.intersection w = s.intersection w' ∧
      SameButForOrder (s.symmetricDifference w) (s.symmetricDifference w') := by
  intro s w w'
  have apart : ((⟨"aB"⟩ : Caseless) == ⟨"c"⟩) = false :=
    Bool.eq_false_iff.2 fun equal => by simpa using Caseless.beq_iff_letters.1 equal
  have one : Represents (fun _ => 0) .default w [⟨"aB"⟩, ⟨"c"⟩] :=
    ofList_represents (fun _ _ _ => rfl) LoadFactors.default (by simpa [Apart] using apart)
  have other : Represents crc32Of ⟨4, 1⟩ w' [⟨"c"⟩, ⟨"aB"⟩] :=
    ofList_represents crc32Of_respects (LoadFactors.mk 4 1)
      (by simpa [Apart, BEq.comm (a := Caseless.mk "c")] using apart)
  have hs : s.Made := ⟨crc32Of, .default, crc32Of_respects, .ofList _⟩
  have hw : w.Made := ⟨fun _ => 0, .default, fun _ _ _ => rfl, .ofList _⟩
  have hw' : w'.Made := ⟨crc32Of, ⟨4, 1⟩, crc32Of_respects, .ofList _⟩
  have same (a : Caseless) : a ∈ w.toList ↔ a ∈ w'.toList := by
    rw [one.elements.mem_iff, other.elements.mem_iff]
    simp [or_comm]
  have alike := operand_layout_irrelevant hs hw hw' same
  exact ⟨hs, hw, hw', same, alike.intersection, alike.symmetricDifference⟩

end BucketSet

end PersistentCollections
