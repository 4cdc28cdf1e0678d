import PersistentCollections.Proofs.MapEquality
import PersistentCollections.Proofs.VersionIdentity

/-! Equality of versions of maps. `==` takes maps with the same names for equal and compares
all others item by item. In a run both ways come to one: maps are equal if they answer alike
for every key. Equal maps stay equal when both are updated, though one of them may be spread
anew then and the other not. -/

namespace PersistentCollections

namespace MapVersion

variable {π κ ν : Type} [BEq κ] [BEq ν] [LoadPolicy π] {x y : MapVersion π κ ν}

/-- What `==` tells of two maps, and that equal maps are equal after the same update of both.
The two updates may come at any times. -/
structure Compares (x y : MapVersion π κ ν) : Prop where
  equal : x.equal y = true ↔ x.value.Alike y.value
  insert : x.equal y = true → ∀ k v l l', (x.insert k v l).1.equal (y.insert k v l').1 = true
  erase : x.equal y = true → ∀ k l l', (x.erase k l).1.equal (y.erase k l').1 = true

omit [LoadPolicy π] in
theorem equal_of_value (h : x.value.equal y.value = true) : x.equal y = true := by
  rw [equal, h, Bool.or_true]

variable [EquivBEq κ] [EquivBEq ν]

theorem compares (hx : x.value.Lawful) (hy : y.value.Lawful)
    (plain : x.equal y = x.value.equal y.value) : x.Compares y := by
  have alike : x.equal y = true ↔ x.value.Alike y.value := plain ▸ BucketMap.equal_iff_alike hx hy
  refine ⟨alike, fun equal k v l l' => equal_of_value ?_, fun equal k l l' => equal_of_value ?_⟩
  · rw [insert_value, insert_value]
    exact ((alike.1 equal).insert hx hy k v).equal (hx.insert k v) (hy.insert k v)
  · rw [erase_value, erase_value]
    exact ((alike.1 equal).erase hx hy k).equal (hx.erase k) (hy.erase k)

end MapVersion

/-- All maps of a run whose hashes respect equality of keys are compared by what they answer,
whatever their hashes, policies and numbers of buckets are. -/
theorem map_equality_extensional {π α κ ν ε : Type} [BEq κ] [BEq ν] [BEq ε] [EquivBEq κ]
    [EquivBEq ν] [EquivBEq ε] [LoadPolicy π] (steps : List (Pool.Step π α κ ν ε)) (l : Ledger) :
    let maps := {x : MapVersion π κ ν //
      x ∈ (Pool.run steps l).1.maps ∧ Respects x.value.hash}
    (∀ x y : maps, x.1.Compares y.1) ∧ Equivalence fun x y : maps => x.1.equal y.1 = true := by
  intro maps
  have sound := Pool.run_sound steps l
  have compares (x y : maps) : x.1.Compares y.1 := by
    have lawful (x : maps) : x.1.value.Lawful :=
      (Pool.run_maps MapVersion.hereditary_reachable steps l x.1 x.2.1).lawful x.2.2
    have plain := (sound.identified_maps x.1 x.2.1).equal y.1 y.2.1
    exact MapVersion.compares (lawful x) (lawful y) plain
  refine ⟨compares, fun x => ?_, fun {x y} equal => ?_, fun {x y z} first second => ?_⟩
  · exact (compares x x).equal.2 (.refl _)
  · exact (compares y x).equal.2 ((compares x y).equal.1 equal).symm
  · exact (compares x z).equal.2
      (((compares x y).equal.1 first).trans ((compares y z).equal.1 second))

theorem map_equality_extensional_caseless :
    let steps : List (Pool.Step LoadFactors Nat Caseless Nat Nat) :=
      [.map (.ofList crc32Of .default [(⟨"Ab"⟩, 1)]),
        .map (.ofList (fun _ => 0) ⟨4, 1⟩ [(⟨"aB"⟩, 2), (⟨"AB"⟩, 1)])]
    ∃ x y, (Pool.run steps {}).1.maps = [x, y] ∧ x.equal y = true ∧ y.equal x = true ∧
      (x.erase ⟨"ab"⟩ {}).1.equal (y.erase ⟨"ab"⟩ {}).1 = true := by
  intro steps
  obtain ⟨compares, equivalence⟩ := map_equality_extensional steps {}
  let x := MapVersion.ofList crc32Of LoadFactors.default [(Caseless.mk "Ab", 1)] {}
  let y := MapVersion.ofList (fun _ => 0) (LoadFactors.mk 4 1)
    [(Caseless.mk "aB", 2), (⟨"AB"⟩, 1)] x.2
  have made : (Pool.run steps {}).1.maps = [x.1, y.1] := rfl
  have hx : x.1 ∈ (Pool.run steps {}).1.maps ∧ Respects x.1.value.hash :=
    ⟨made ▸ by simp, crc32Of_respects⟩
  have hy : y.1 ∈ (Pool.run steps {}).1.maps ∧ Respects y.1.value.hash :=
    ⟨made ▸ by simp, fun _ _ _ => rfl⟩
  have alike : x.1.value.Alike y.1.value := by
    intro k
    have left : x.1.value.find? k = _ := BucketMap.find?_ofList crc32Of_respects _ _ k
    have right : y.1.value.find? k = _ := BucketMap.find?_ofList (fun _ _ _ => rfl) _ _ k
    have first : ((⟨"aB"⟩ : Caseless) == k) = (⟨"Ab"⟩ == k) :=
      BEq.congr_left (Caseless.beq_iff_letters.2 (by simp))
    have last : ((⟨"AB"⟩ : Caseless) == k) = (⟨"Ab"⟩ == k) :=
      BEq.congr_left (Caseless.beq_iff_letters.2 (by simp))
    rw [BucketMap.get?, BucketMap.get?, left, right]
    cases known : (⟨"Ab"⟩ : Caseless) == k <;>
      simp [Association.find?, first, last, known]
  have equal := (compares ⟨x.1, hx⟩ ⟨y.1, hy⟩).equal.2 alike
  have erased := (compares ⟨x.1, hx⟩ ⟨y.1, hy⟩).erase equal ⟨"ab"⟩ {} {}
  exact ⟨x.1, y.1, made, equal, equivalence.symm (x := ⟨x.1, hx⟩) (y := ⟨y.1, hy⟩) equal, erased⟩

end PersistentCollections
