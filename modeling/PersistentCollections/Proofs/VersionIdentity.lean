import PersistentCollections.Proofs.VersionRuns

/-! When two collections are the same version. In any run over vectors, maps and sets a
name stands for one thing, so collections with the same names are equal in every part, and
`==` may take them for equal without looking further. A step that changes nothing returns
the version that it got; every other step gives out a new name, so what it returns is the
same as no version made before. -/

namespace PersistentCollections

/-- What the identity of a vector tells, and which steps on it keep it. -/
structure VectorVersion.Identified (versions : List (VectorVersion α)) (l : Ledger)
    (x : VectorVersion α) : Prop where
  sound : ∀ y ∈ versions, x.same y = true → x.value.toList = y.value.toList
  equal : ∀ [BEq α] [ReflBEq α], ∀ y ∈ versions, x.equal y = x.value.equal y.value
  clone : x.same x = true
  append_nil : (x.append [] l).1.same x = true
  pushEach_nil : (x.pushEach [] l).1.same x = true
  append : ∀ items, items ≠ [] → ∀ y ∈ versions, (x.append items l).1.same y = false
  push : ∀ a, ∀ y ∈ versions, (x.push a l).1.same y = false
  pushEach : ∀ items, items ≠ [] → ∀ y ∈ versions, (x.pushEach items l).1.same y = false
  set : ∀ index a, index < x.value.length → ∃ made, x.set index a = .ok made ∧
    ∀ y ∈ versions, (made l).1.same y = false

structure MapVersion.Identified [BEq κ] [LoadPolicy π] (versions : List (MapVersion π κ ν))
    (l : Ledger) (x : MapVersion π κ ν) : Prop where
  sound : ∀ y ∈ versions, x.same y = true → x.value.toList = y.value.toList ∧
    x.value.buckets.length = y.value.buckets.length
  equal : ∀ [BEq ν] [ReflBEq ν], ∀ y ∈ versions, x.equal y = x.value.equal y.value
  clone : x.same x = true
  insertAll_nil : (x.insertAll [] l).1.same x = true
  erase_absent : ∀ k, x.value.contains k = false → (x.erase k l).1.same x = true
  eraseAll_absent : ∀ keys, (∀ k ∈ keys, x.value.contains k = false) →
    (x.eraseAll keys l).1.same x = true
  insert : ∀ k v, ∀ y ∈ versions, (x.insert k v l).1.same y = false
  erase : ∀ k, x.value.contains k = true → ∀ y ∈ versions, (x.erase k l).1.same y = false

structure SetVersion.Identified [BEq κ] [LoadPolicy π] (versions : List (SetVersion π κ))
    (l : Ledger) (x : SetVersion π κ) : Prop where
  sound : ∀ y ∈ versions, x.same y = true → x.value.toList = y.value.toList ∧
    x.value.map.buckets.length = y.value.map.buckets.length
  clone : x.same x = true
  insertAll_nil : (x.insertAll [] l).1.same x = true
  union_empty : ∀ (hash : κ → UInt64) (policy : π) (w : BucketSet π κ), w.Reachable hash policy →
    w.isEmpty = true → (x.union w l).1.same x = true
  erase_absent : ∀ a, x.value.contains a = false → (x.erase a l).1.same x = true
  eraseAll_absent : ∀ items, (∀ a ∈ items, x.value.contains a = false) →
    (x.eraseAll items l).1.same x = true
  insert : ∀ a, ∀ y ∈ versions, (x.insert a l).1.same y = false
  erase : ∀ a, x.value.contains a = true → ∀ y ∈ versions, (x.erase a l).1.same y = false

namespace Pool.Sound

variable {π α κ ν ε : Type} [BEq κ] [BEq ε] {p : Pool π α κ ν ε} {l : Ledger}
  (h : p.Sound l.next)

include h

theorem identified_vectors : ∀ x ∈ p.vectors, x.Identified p.vectors l := by
  intro x member
  have wellFormed := h.vectors.value x member
  have alike {y : VectorVersion α} (hy : y ∈ p.vectors) (same : x.same y = true) :
      x.value = y.value := h.vectors.eq_of_same member hy same
  have anew {z : VectorVersion α} (new : Renamed l.next z) : ∀ y ∈ p.vectors, z.same y = false :=
    fun y hy => h.vectors.same_eq_false (z := z) hy new
  constructor
  case sound => exact fun y hy same => congrArg TrieVector.toList (alike hy same)
  case equal =>
    intro _ _ y hy
    rw [VectorVersion.equal]
    cases same : x.same y with
    | false => rfl
    | true => simp [alike hy same, TrieVector.equal]
  case clone => exact x.same_self
  case append_nil => rw [x.append_nil, x.same_self]
  case pushEach_nil => exact x.same_self
  case append => exact fun items some => anew (VectorVersion.append_names wellFormed some l).2
  case push => exact fun a => anew (VectorVersion.push_renamed x a l wellFormed)
  case pushEach =>
    exact fun items some => anew
      (VectorVersion.push_sharing.foldlM_renamed VectorVersion.push_renamed wellFormed some l)
  case set =>
    intro index a inside
    have accepted : x.set index a = .ok (x.replace index a) := by
      rw [VectorVersion.set, checkIndex_ok_iff.2 inside]
      rfl
    exact ⟨_, accepted, anew (x.replace_names index a l).2⟩

theorem identified_maps [EquivBEq κ] [LoadPolicy π] : ∀ x ∈ p.maps, x.Identified p.maps l := by
  intro x member
  have alike {y : MapVersion π κ ν} (hy : y ∈ p.maps) (same : x.same y = true) :
      x.value.buckets = y.value.buckets := h.maps.eq_of_same member hy same
  have anew {z : MapVersion π κ ν} (new : Renamed l.next (z.map BucketMap.buckets)) :
      ∀ y ∈ p.maps, z.same y = false := fun y hy => h.maps.same_eq_false hy new
  constructor
  case sound =>
    intro y hy same
    rw [BucketMap.toList, BucketMap.toList, alike hy same]
    exact ⟨rfl, rfl⟩
  case equal =>
    intro _ _ y hy
    rw [MapVersion.equal]
    cases same : x.same y with
    | false => rfl
    | true =>
      have contents : x.value.toList = y.value.toList := by
        rw [BucketMap.toList, BucketMap.toList, alike hy same]
      have equal := (h.maps.value x member).equal_iff_self (h.maps.value y hy) (.of_eq contents)
      exact (equal.2 fun _ _ => BEq.rfl).symm
  case clone => exact x.same_self
  case insertAll_nil => exact x.same_self
  case erase_absent =>
    intro k absent
    rw [x.erase_absent absent]
    exact x.same_self
  case eraseAll_absent =>
    intro keys absent
    have unchanged : (x.eraseAll keys l).1 = x := foldlM_unchanged (fun k inside l => by
      rw [x.erase_absent (absent k inside)]) l
    rw [unchanged]
    exact x.same_self
  case insert => exact fun k v => anew (x.insert_names k v l).2
  case erase => exact fun k known => anew (x.erase_names known l).2

theorem identified_sets [EquivBEq ε] [LoadPolicy π] : ∀ x ∈ p.sets, x.Identified p.sets l := by
  intro x member
  have alike {y : SetVersion π ε} (hy : y ∈ p.sets) (same : x.same y = true) :
      x.value.map.buckets = y.value.map.buckets := h.sets.eq_of_same member hy same
  have anew {z : SetVersion π ε} (new : Renamed l.next (z.map BucketSet.buckets)) :
      ∀ y ∈ p.sets, z.same y = false := fun y hy => h.sets.same_eq_false hy new
  have self : x.same x = true := VectorVersion.same_self _
  constructor
  case sound =>
    intro y hy same
    rw [BucketSet.toList, BucketSet.toList, BucketMap.keys, BucketMap.keys, BucketMap.toList,
      BucketMap.toList, alike hy same]
    exact ⟨rfl, rfl⟩
  case clone => exact self
  case insertAll_nil => exact self
  case union_empty =>
    intro hash policy w reachable none
    rw [SetVersion.union, BucketSet.toList_of_isEmpty reachable.orderly none]
    exact self
  case erase_absent =>
    intro a absent
    rwa [x.erase_absent absent]
  case eraseAll_absent =>
    intro items absent
    have unchanged : (x.eraseAll items l).1 = x := foldlM_unchanged (fun a inside l => by
      rw [x.erase_absent (absent a inside)]) l
    rwa [unchanged]
  case insert => exact fun a => anew (x.toMap.insert_names a () l).2
  case erase => exact fun a known => anew (x.toMap.erase_names known l).2

end Pool.Sound

/-- After any run over vectors, maps and sets, the identity of each version tells that what
it holds is the same, and each step on it keeps the identity or gives a new one. -/
theorem identity_sound_complete {π α κ ν ε : Type} [BEq κ] [BEq ε] [EquivBEq κ] [EquivBEq ε]
    [LoadPolicy π] (steps : List (Pool.Step π α κ ν ε)) (l : Ledger) :
    let made := Pool.run steps l
    (∀ x ∈ made.1.vectors, x.Identified made.1.vectors made.2) ∧
    (∀ x ∈ made.1.maps, x.Identified made.1.maps made.2) ∧
    ∀ x ∈ made.1.sets, x.Identified made.1.sets made.2 := by
  have sound := Pool.run_sound steps l
  exact ⟨sound.identified_vectors, sound.identified_maps, sound.identified_sets⟩

theorem identity_sound_complete_caseless :
    let made := Pool.run [.vector (.ofList [1, 2]), .vector (.push 0 3), .elsewhere 4,
      .map (.ofList crc32Of LoadFactors.default [(Caseless.mk "Ab", 1)]), .map (.insert 0 ⟨"aB"⟩ 1),
      .set (.ofList crc32Of .default [Caseless.mk "Ab"]), .set (.clone 0)] {}
    (made.1.vectors.length = 2 ∧ made.1.maps.length = 2 ∧ made.1.sets.length = 2) ∧
      (∀ x ∈ made.1.vectors, x.Identified made.1.vectors made.2) ∧
      (∀ x ∈ made.1.maps, x.Identified made.1.maps made.2) ∧
      ∀ x ∈ made.1.sets, x.Identified made.1.sets made.2 := by
  refine ⟨⟨rfl, rfl, rfl⟩, ?_⟩
  exact identity_sound_complete _ {}

end PersistentCollections
