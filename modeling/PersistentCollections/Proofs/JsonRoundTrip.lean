import PersistentCollections.Proofs.JsonNesting
import PersistentCollections.Proofs.Respreading
import PersistentCollections.Proofs.SetComparisons

/-! Collections written as text and read back. What is read equals what was written. A map or a
set that is read is made from its items in the order in which they were listed, with buckets for
as many. Such a map lists them bucket by bucket, and they fall into the same buckets when they
are read in this order, so reading once more changes nothing. -/

namespace PersistentCollections

open Json Json.Decoder

variable {π α κ ν : Type}

/-! ### Items of objects -/

section

variable [JsonKey κ] [JsonValue ν]

def writeMember? (item : κ × ν) : Option (String × String) :=
  (JsonKey.write? item.1).map fun key => (key, JsonValue.write item.2)

def ItemYields (item other : κ × ν) : Prop := ∃ text, writeMember? item = some text ∧
  (member JsonKey.read JsonValue.read : Decoder (κ × ν)).Takes (memberText text) other ∧
    Quoted (memberText text)

theorem object_yields {items others : List (κ × ν)} (h : List.Forall₂ ItemYields items others) :
    ∃ texts, items.mapM writeMember? = some texts ∧
      (object JsonKey.read JsonValue.read).Takes (writeObject texts).toList others := by
  have members : ∃ texts, items.mapM writeMember? = some texts ∧
      Taken (member JsonKey.read JsonValue.read) Quoted (texts.map memberText) others := by
    induction h with
    | nil => exact ⟨[], rfl, .nil⟩
    | cons first _ ih =>
      obtain ⟨text, written, taken⟩ := first
      obtain ⟨texts, all, rest⟩ := ih
      exact ⟨text :: texts, by simp [written, all], .cons taken rest⟩
  obtain ⟨texts, written, taken⟩ := members
  exact ⟨texts, written, object_takes taken⟩

theorem itemYields {k l : κ} {u v : ν} {key : String} (hk : KeyYields k key l)
    (hv : Yields u v) : ItemYields (k, u) (l, v) := by
  obtain ⟨front, begins⟩ := hk.quoted
  refine ⟨(key, JsonValue.write u), ?_, member_takes hk.taken hv.taken, _,
    congrArg (· ++ _) begins⟩
  rw [writeMember?, hk.written]
  rfl

variable [BEq κ] [BEq ν]

/-- A key and a value that are each read as something equal that is read as itself. -/
def ItemReadsBack (item : κ × ν) : Prop :=
  (∃ text k, KeyReadsAs item.1 text k) ∧ ReadsBack item.2

structure ItemReadsAs (item other : κ × ν) : Prop where
  yields : ItemYields item other
  settled : ItemYields other other
  same : StandsFor item other

theorem ItemReadsBack.readsAs {item : κ × ν} (h : ItemReadsBack item) :
    ∃ other, ItemReadsAs item other := by
  obtain ⟨⟨key, k, keyReads⟩, v, reads⟩ := h
  obtain ⟨settledKey, keySettled⟩ := keyReads.settled
  exact ⟨(k, v), itemYields keyReads.toKeyYields reads.toYields,
    itemYields keySettled reads.settled, keyReads.equal, reads.equal⟩

end

/-! ### Maps -/

namespace BucketMap

variable [BEq κ] [LoadPolicy π] [JsonKey κ] [JsonValue ν] {hash : κ → UInt64} {policy : π}
  {m w : BucketMap π κ ν}

theorem fromJson_of_yields (hash : κ → UInt64) (policy : π) {others : List (κ × ν)}
    (h : List.Forall₂ ItemYields m.toList others) : ∃ text, m.toJson? = some text ∧
      (fromJson hash policy text).value = .ok (ofList hash policy others).value := by
  obtain ⟨texts, written, taken⟩ := object_yields h
  refine ⟨writeObject texts, ?_, (taken.record (ofList hash policy)).run⟩
  change (m.toList.mapM writeMember?).map writeObject = _
  rw [written]
  rfl

variable [BEq ν]

/-- What comes of a map that is written and then read with this hash and this policy. -/
structure Normalizes (hash : κ → UInt64) (policy : π) (m : BucketMap π κ ν) (text : String)
    (w : BucketMap π κ ν) : Prop where
  written : m.toJson? = some text
  read : (fromJson hash policy text).value = .ok w
  equal : w.equal m = true ∧ m.equal w = true
  length : w.length = m.length
  buckets : w.buckets.length = bucketCount policy m.length
  /-- It is what its own text is read as, with all its buckets. -/
  again : ∃ text', w.toJson? = some text' ∧ (fromJson hash policy text').value = .ok w

theorem Lawful.normalizes [EquivBEq κ] (hm : m.Lawful) (lawful : Respects hash) (policy : π)
    (h : ∀ item ∈ m.toList, ItemReadsBack item) : ∃ text w, Normalizes hash policy m text w := by
  obtain ⟨others, reads⟩ := exists_forall₂ fun item member => (h item member).readsAs
  have remade := ofList_remade lawful policy hm (reads.imp fun _ _ read => read.same)
  obtain ⟨text, written, read⟩ :=
    fromJson_of_yields hash policy (reads.imp fun _ _ read => read.yields)
  generalize (ofList hash policy others).value = w at *
  -- The new map lists what was read in another order, but each item is still read as itself.
  have settled : List.Forall₂ ItemYields w.toList w.toList := by
    refine List.forall₂_same.2 fun other member => ?_
    obtain ⟨item, _, read⟩ := exists_of_forall₂ reads other (remade.items.mem_iff.1 member)
    exact read.settled
  obtain ⟨text', rewritten, reread⟩ := fromJson_of_yields hash policy settled
  rw [remade.again] at reread
  exact ⟨text, w, written, read, remade.equal, remade.length, remade.buckets, text', rewritten,
    reread⟩

end BucketMap

/-! ### Sets -/

namespace BucketSet

variable [BEq κ] {s w : BucketSet π κ}

theorem equal_of_map (equal : s.map.equal w.map = true) : s.equal w = true := by
  obtain ⟨length, found⟩ := BucketMap.equal_iff.1 equal
  have all : s.toList.all w.contains = true := by
    rw [toList, BucketMap.keys, List.all_map, List.all_eq_true]
    intro item member
    obtain ⟨u, read, _⟩ := found item member
    have known : w.map.contains item.1 = true := by
      rw [BucketMap.contains_eq_isSome_get?, read]
      rfl
    exact known
  have same : s.length = w.length := length
  rw [BucketSet.equal, isSubset, all, same]
  simp

variable [LoadPolicy π] [JsonValue κ] {hash : κ → UInt64} {policy : π}

theorem fromJson_of_yields (hash : κ → UInt64) (policy : π) {others : List κ}
    (h : List.Forall₂ Yields s.toList others) :
    (fromJson hash policy s.toJson).value = .ok (ofList hash policy others).value :=
  ((array_yields h).record (ofList hash policy)).run

structure Normalizes (hash : κ → UInt64) (policy : π) (s w : BucketSet π κ) : Prop where
  read : (fromJson hash policy s.toJson).value = .ok w
  equal : w.equal s = true ∧ s.equal w = true
  length : w.length = s.length
  buckets : w.map.buckets.length = bucketCount policy s.length
  again : (fromJson hash policy w.toJson).value = .ok w

theorem normalizes [EquivBEq κ] (hs : s.map.Lawful) (lawful : Respects hash) (policy : π)
    (h : ∀ a ∈ s.toList, ReadsBack a) : ∃ w, Normalizes hash policy s w := by
  obtain ⟨others, reads⟩ := exists_forall₂ h
  have same : List.Forall₂ StandsFor s.map.toList (items others) := by
    rw [← items_toList, items, items, List.forall₂_map_left_iff, List.forall₂_map_right_iff]
    exact reads.imp fun _ _ read => ⟨read.equal.2, rfl, rfl⟩
  have remade := BucketMap.ofList_remade lawful policy hs same
  have read := fromJson_of_yields hash policy (reads.imp fun _ _ read => read.toYields)
  have made : (ofList hash policy others).value.map =
      (BucketMap.ofList hash policy (items others)).value := rfl
  rw [← made] at remade
  generalize (ofList hash policy others).value = w at *
  have settled : List.Forall₂ Yields w.toList w.toList := by
    refine List.forall₂_same.2 fun b member => ?_
    have listed : w.toList.Perm others := keys_items others ▸ remade.items.map Prod.fst
    obtain ⟨a, _, read⟩ := exists_of_forall₂ reads b (listed.mem_iff.1 member)
    exact read.settled
  have again : (ofList hash policy w.toList).value = w := by
    change BucketSet.mk (BucketMap.ofList hash policy (items w.toList)).value = w
    rw [items_toList, remade.again]
  have reread := fromJson_of_yields hash policy settled
  rw [again] at reread
  exact ⟨w, read, remade.equal.imp equal_of_map equal_of_map, remade.length, remade.buckets,
    reread⟩

end BucketSet

/-! ### All of them -/

variable [BEq α] [JsonValue α] [BEq κ] [EquivBEq κ] [JsonKey κ] [JsonValue κ] [BEq ν] [JsonValue ν]
  [LoadPolicy π] {hash hash' : κ → UInt64}

end PersistentCollections
