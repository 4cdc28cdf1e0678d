import PersistentCollections.Number.Binary
import PersistentCollections.Proofs.SetAlgebra
import PersistentCollections.Proofs.VersionNames

/-! A map of given items is made at once, in buckets sized for all of them, or by
inserting one after the other into an empty map, which is spread anew whenever it has
become too full. Both maps hold, for each key, the last item that has it, and so do both
sets. The two maps are different versions, so `==` compares what they hold: it fails
where a value differs from itself. -/

namespace PersistentCollections

variable {π κ ν : Type} [BEq κ] [LoadPolicy π] {hash : κ → UInt64}

namespace MapVersion

/-- Two versions of the map of these items. Of several items with one key both hold the
last, in its spelling. -/
structure Agree [BEq ν] (items : List (κ × ν)) (x y : MapVersion π κ ν) : Prop where
  length : x.value.length = y.value.length
  find?_left : ∀ k, x.value.find? k = Association.find? items.reverse k
  find?_right : ∀ k, y.value.find? k = Association.find? items.reverse k
  get? : ∀ k, x.value.get? k = y.value.get? k
  equal : x.equal y = true ↔ ∀ k v, x.value.get? k = some v → (v == v) = true
  equal_comm : y.equal x = x.equal y

/-- The map of these items made at once, and made from nothing by insertions. -/
def bothWays (hash : κ → UInt64) (policy : π) (items : List (κ × ν)) :
    Recording (MapVersion π κ ν × MapVersion π κ ν) := do
  let bulk ← ofList hash policy items
  let grown ← (← empty hash policy).insertAll items
  return (bulk, grown)

variable (hash) (policy : π) (items : List (κ × ν)) (l : Ledger)

theorem bothWays_values :
    (bothWays hash policy items l).1.1.value = (BucketMap.ofList hash policy items).value ∧
    (bothWays hash policy items l).1.2.value =
      ((BucketMap.empty hash policy).insertAll items).value := by
  refine ⟨rfl, ?_⟩
  let bulk := ofList hash policy items l
  let start := empty (κ := κ) (ν := ν) hash policy bulk.2
  exact (start.1.insertAll_run items start.2).1

theorem bothWays_roots :
    (bothWays hash policy items l).1.1.stamp.root < (bothWays hash policy items l).1.2.stamp.root := by
  let bulk := ofList hash policy items l
  let start := empty (κ := κ) (ν := ν) hash policy bulk.2
  have names := (start.1.insertAll_run items start.2).2
  have first : bulk.1.stamp.root = l.next := rfl
  have second : (start.1.map BucketMap.buckets).stamp.root = l.next + 2 ∧
      start.2.next = l.next + 4 := ⟨rfl, rfl⟩
  change bulk.1.stamp.root < ((start.1.insertAll items start.2).1.map BucketMap.buckets).stamp.root
  have := names.root
  omega

variable {hash} in
theorem bothWays_agree [EquivBEq κ] [BEq ν] (lawful : Respects hash) :
    Agree items (bothWays hash policy items l).1.1 (bothWays hash policy items l).1.2 := by
  obtain ⟨bulk, grown⟩ := bothWays_values hash policy items l
  have roots := bothWays_roots hash policy items l
  generalize (bothWays hash policy items l).1.1 = x at *
  generalize (bothWays hash policy items l).1.2 = y at *
  have hx : BucketMap.Represents hash policy x.value (Association.insertAll [] items) :=
    bulk ▸ BucketMap.ofList_represents lawful policy items
  have hy : BucketMap.Represents hash policy y.value (Association.insertAll [] items) :=
    grown ▸ (BucketMap.empty_represents hash policy).insertAll lawful items
  have left (k : κ) := (hx.find?_eq lawful k).trans (Association.find?_insertAll_nil items k)
  have right (k : κ) := (hy.find?_eq lawful k).trans (Association.find?_insertAll_nil items k)
  have forward : x.equal y = x.value.equal y.value := by
    rw [equal, same_eq_false (Nat.ne_of_lt roots), Bool.false_or]
  have backward : y.equal x = y.value.equal x.value := by
    rw [equal, same_eq_false (Nat.ne_of_gt roots), Bool.false_or]
  refine ⟨hx.length.trans hy.length.symm, left, right, fun k => ?_, ?_, ?_⟩
  · rw [BucketMap.get?, BucketMap.get?, left, right]
  · rw [forward, hx.equal_iff_self hy]
    exact hx.forall_value_iff (Q := fun v => (v == v) = true) lawful
  · rw [forward, backward, Bool.eq_iff_iff, hx.equal_iff_self hy, hy.equal_iff_self hx]

end MapVersion

namespace BucketSet

structure Agree (hash : κ → UInt64) (policy : π) (elements : List κ) (s w : BucketSet π κ) :
    Prop where
  left : Composed hash policy (fun x => elements.any (· == x))
    (fun a => elements.reverse.find? (· == a) = some a) s
  right : Composed hash policy (fun x => elements.any (· == x))
    (fun a => elements.reverse.find? (· == a) = some a) w
  length : s.length = w.length
  equal : s.equal w = true
  equal_comm : w.equal s = true

variable [EquivBEq κ]

omit [LoadPolicy π] in
theorem composed_last {policy : π} {s : BucketSet π κ} {elements last : List κ}
    (lawful : Respects hash) (bound : items last = Association.insertAll [] (items elements))
    (h : Represents hash policy s last) :
    Composed hash policy (fun x => elements.any (· == x))
      (fun a => elements.reverse.find? (· == a) = some a) s := by
  have found (x : κ) : Association.find? (items last) x =
      (elements.reverse.find? (· == x)).map fun a => (a, ()) := by
    rw [bound, Association.find?_insertAll_nil, items, ← List.map_reverse]
    exact List.find?_map ..
  refine h.composed lawful (fun x => ?_) fun a => ?_
  · rw [← contains_items, Association.contains_eq, found, Option.isSome_map, List.isSome_find?,
      List.any_reverse]
  · have member : a ∈ last ↔ (a, ()) ∈ items last := by simp [items]
    have own : (a, ()) ∈ items last ↔ Association.find? (items last) a = some (a, ()) := by
      rw [(distinct_items.2 h.apart).find?_eq_some_iff]
      exact (and_iff_left BEq.rfl).symm
    rw [member, own, found]
    simp

theorem ofList_agrees (lawful : Respects hash) (policy : π) (elements : List κ) :
    Agree hash policy elements (ofList hash policy elements).value
      ((empty hash policy).insertAll elements).value := by
  let last := (Association.insertAll [] (items elements)).map Prod.fst
  have bound : items last = Association.insertAll [] (items elements) := by
    rw [items, List.map_map]
    exact List.map_id _
  have hs : Represents hash policy (ofList hash policy elements).value last := by
    refine represents_of_map ?_
    rw [bound]
    exact BucketMap.ofList_represents lawful policy (items elements)
  have hw : Represents hash policy ((empty hash policy).insertAll elements).value last := by
    refine represents_of_map ?_
    rw [bound, insertAll_map]
    exact (BucketMap.empty_represents hash policy).insertAll lawful (items elements)
  exact ⟨composed_last lawful bound hs, composed_last lawful bound hw, hs.length.trans hw.length.symm,
    hs.equal hw lawful, hw.equal hs lawful⟩

end BucketSet

/-- Made at once or by insertions, for any items, with any duplicates among them. -/
theorem bulk_agrees_with_insertions [EquivBEq κ] [BEq ν] (lawful : Respects hash) (policy : π)
    (items : List (κ × ν)) (elements : List κ) (l : Ledger) :
    let made := (MapVersion.bothWays hash policy items l).1
    MapVersion.Agree items made.1 made.2 ∧
      BucketSet.Agree hash policy elements (BucketSet.ofList hash policy elements).value
        ((BucketSet.empty hash policy).insertAll elements).value :=
  ⟨MapVersion.bothWays_agree policy items l lawful, BucketSet.ofList_agrees lawful policy elements⟩

theorem bulk_agrees_with_insertions_caseless :
    Respects (crc32Of : Caseless → UInt64) ∧
      let items := [(Caseless.mk "Ab", 1), (⟨"c"⟩, 2), (⟨"aB"⟩, 3)]
      let made := (MapVersion.bothWays crc32Of LoadFactors.default items {}).1
      let words := BucketSet.ofList crc32Of LoadFactors.default [Caseless.mk "Ab", ⟨"aB"⟩]
      made.1.equal made.2 = true ∧ made.2.value.find? ⟨"AB"⟩ = some (⟨"aB"⟩, 3) ∧
        ⟨"aB"⟩ ∈ words.value.toList ∧ ⟨"Ab"⟩ ∉ words.value.toList := by
  refine ⟨crc32Of_respects, ?_⟩
  intro items
  have shouted : ((⟨"aB"⟩ : Caseless) == ⟨"AB"⟩) = true := Caseless.beq_iff_letters.2 (by simp)
  have same : ((⟨"aB"⟩ : Caseless) == ⟨"Ab"⟩) = true := Caseless.beq_iff_letters.2 (by simp)
  have both := bulk_agrees_with_insertions crc32Of_respects LoadFactors.default items
    [Caseless.mk "Ab", ⟨"aB"⟩] {}
  -- What is known of the two maps is enough, and nothing evaluates them.
  generalize (MapVersion.bothWays crc32Of LoadFactors.default items {}).1 = made at both ⊢
  obtain ⟨maps, sets⟩ := both
  refine ⟨maps.equal.2 fun _ v _ => beq_self_eq_true v, ?_, ?_, ?_⟩
  · rw [maps.find?_right]
    simp [items, Association.find?, shouted]
  · rw [sets.left.stored]
    simp
  · rw [sets.left.stored]
    simp [same]

/-- A number that differs from itself makes a map differ from the other one. -/
theorem bulk_differs_from_insertions_nan :
    let items : List (FixedInt .i64 × Binary .double) := [(.wrap 1, ⟨0x7ff8000000000000⟩)]
    let made := (MapVersion.bothWays crc32Of LoadFactors.default items {}).1
    Respects (crc32Of : FixedInt .i64 → UInt64) ∧ made.1.equal made.2 = false := by
  intro items
  have lawful : Respects (crc32Of : FixedInt .i64 → UInt64) :=
    fun _ _ equal => congrArg crc32Of (eq_of_beq equal)
  have maps := MapVersion.bothWays_agree LoadFactors.default items {} lawful
  generalize (MapVersion.bothWays crc32Of LoadFactors.default items {}).1 = made at maps ⊢
  have read : made.1.value.get? (.wrap 1) = some ⟨0x7ff8000000000000⟩ := by
    rw [BucketMap.get?, maps.find?_left]
    simp [items, Association.find?]
  refine ⟨lawful, Bool.eq_false_iff.2 fun equal => ?_⟩
  have reflexive := maps.equal.1 equal (.wrap 1) _ read
  exact absurd reflexive (by decide)

end PersistentCollections
