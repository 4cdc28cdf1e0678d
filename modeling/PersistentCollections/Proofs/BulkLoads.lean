import PersistentCollections.Number.FixedInt
import PersistentCollections.Proofs.ExactFactors

/-! Loads of maps that are made at once. The buckets are as many as the number of given
items asks for, and items with equal keys count as one only afterwards. So there are never
too many items in such a map, but there may be too few, and then the map does not pass its
own check. -/

namespace PersistentCollections

theorem Bucket.distinct_iff {κ ν : Type} [BEq κ] [EquivBEq κ] {b : Bucket κ ν} :
    Bucket.distinct b = true ↔ Association.Distinct b := by
  induction b with
  | nil => simp [Bucket.distinct, Association.Distinct]
  | cons item rest ih =>
    have apart : Bucket.contains rest item.1 = false ↔
        ∀ other ∈ rest, (item.1 == other.1) = false := by
      simp [Bucket.contains, BEq.comm]
    rw [Bucket.distinct, Bool.and_eq_true, Bool.not_eq_true', apart, ih, Association.Distinct,
      Association.Distinct, List.pairwise_cons]

namespace BucketMap

variable {π κ ν : Type} [BEq κ] [EquivBEq κ] {m : BucketMap π κ ν}

theorem WellFormed.bucket_checks (h : m.WellFormed) {i : Nat} {b : Bucket κ ν}
    (found : m.buckets.toList[i]? = some (some b)) :
    (!b.isEmpty && b.all (fun item => m.place item.1 == i) && Bucket.distinct b) = true := by
  have inTable : m.table[i]? = some b := by simp [table, found, Bucket.items]
  have nonempty := h.present b (List.mem_of_getElem? found)
  have distinct := Bucket.distinct_iff.2 (h.placed.bucket_distinct (List.mem_of_getElem? inTable))
  have places : ∀ item ∈ b, m.place item.1 = i := by
    intro item inside
    rw [place, ← h.tabled.table_length]
    exact h.placed.place i b inTable item inside
  simpa [nonempty, distinct] using places

theorem WellFormed.check_eq [LoadPolicy π] (h : m.WellFormed) :
    m.check = (!needsGrow m.policy m.length m.buckets.length && !m.sparse) := by
  have filled : m.buckets.isEmpty = false := by
    have pos := h.placed.pos
    rw [h.tabled.table_length] at pos
    simpa [TrieVector.isEmpty] using Nat.ne_of_gt pos
  have count : (m.toList.length == m.length) = true := by simp [h.length_toList]
  rw [check, h.buckets.check, filled, count, List.all_eq_true.2]
  · simp
  · rintro ⟨stored, i⟩ member
    have found := List.mk_mem_zipIdx_iff_getElem?.1 member
    cases stored with
    | none => rfl
    | some b => exact h.bucket_checks found

end BucketMap

variable {π κ ν : Type} [BEq κ] [EquivBEq κ] [LoadPolicy π] {hash : κ → UInt64}

/-- A map that was made of these items at once. It is as large as their number asks for. -/
structure BulkLoad (p : π) (items : List (κ × ν)) (m : BucketMap π κ ν) : Prop where
  buckets : m.buckets.length = bucketCount p items.length
  length : m.length = (latest items).length
  check : m.check =
    (!needsGrow p m.length m.buckets.length && !needsShrink p m.length m.buckets.length)
  grow : Load.Consistent p → needsGrow p m.length m.buckets.length = false
  of_distinct : Load.Consistent p → Association.Distinct items → m.check = true

theorem ofList_bulkLoad (lawful : Respects hash) (p : π) (items : List (κ × ν)) :
    BulkLoad p items (BucketMap.ofList hash p items).value := by
  have form := BucketMap.ofList_represents lawful p items
  have load := BucketMap.load_ofList lawful p items
  have roomy (c : Load.Consistent p) := (BucketMap.ofList_roomy c lawful items).load
  have balanced (c : Load.Consistent p) (distinct : Association.Distinct items) :=
    (BucketMap.ofList_balanced c lawful distinct).load
  generalize (BucketMap.ofList hash p items).value = m at *
  have check : m.check =
      (!needsGrow p m.length m.buckets.length && !needsShrink p m.length m.buckets.length) := by
    rw [form.wellFormed.check_eq, BucketMap.sparse, form.policy_eq]
  refine ⟨congrArg Load.buckets load, ?_, check, roomy, fun c distinct => ?_⟩
  · rw [← Bucket.gather_eq_latest, (Bucket.gather_perm items).length_eq]
    exact congrArg Load.items load
  · have grow : needsGrow p m.length m.buckets.length = false := (balanced c distinct).grow
    have shrink : needsShrink p m.length m.buckets.length = false := (balanced c distinct).shrink
    rw [check, grow, shrink]
    rfl

/-- Made from a list or read from a text, a map or a set gets the buckets that the number of
given items asks for, and passes its check if they fit the items that are left. Without
rounding these are never too many; only items with equal keys make them too few. -/
theorem bulk_loads (lawful : Respects hash) (p : π) :
    (∀ items : List (κ × ν), BulkLoad p items (BucketMap.ofList hash p items).value) ∧
    (∀ [JsonKey κ] [JsonValue ν] (text : String) (m : BucketMap π κ ν),
      (BucketMap.fromJson hash p text).value = .ok m →
        ∃ items, m = (BucketMap.ofList hash p items).value ∧ BulkLoad p items m) ∧
    (∀ elements : List κ,
      BulkLoad p (BucketSet.items elements) (BucketSet.ofList hash p elements).value.map) ∧
    (∀ [JsonValue κ] (text : String) (s : BucketSet π κ),
      (BucketSet.fromJson hash p text).value = .ok s →
        ∃ elements, s = (BucketSet.ofList hash p elements).value ∧
          BulkLoad p (BucketSet.items elements) s.map) ∧
    ∀ c : ExactFactors, Load.Consistent c := by
  have sets (elements : List κ) :
      BulkLoad p (BucketSet.items elements) (BucketSet.ofList hash p elements).value.map :=
    ofList_bulkLoad lawful p (BucketSet.items elements)
  refine ⟨ofList_bulkLoad lawful p, ?_, sets, ?_, fun c => c.consistent⟩
  · intro _ _ text m read
    obtain ⟨items, rfl⟩ := Json.Decoder.run_record read
    exact ⟨items, rfl, ofList_bulkLoad lawful p items⟩
  · intro _ text s read
    obtain ⟨elements, rfl⟩ := Json.Decoder.run_record read
    exact ⟨elements, rfl, sets elements⟩

theorem bulk_loads_texts :
    Respects (crc32Of : String → UInt64) ∧
      let made := BucketMap.ofList crc32Of ExactFactors.default [("a", 1), ("b", 2), ("a", 3)]
      let m := (BucketMap.ofList crc32Of ExactFactors.default ([] : List (String × FixedInt .i64))).value
      let s := (BucketSet.ofList crc32Of ExactFactors.default ([] : List String)).value
      made.value.buckets.length = 1 ∧ made.value.length = 2 ∧ made.value.check = true ∧
        (BucketMap.fromJson crc32Of ExactFactors.default "\x7b\x7d").value = .ok m ∧
          (∃ items, BulkLoad .default items m) ∧
        (BucketSet.fromJson crc32Of ExactFactors.default "[]").value = .ok s ∧
          ∃ elements, BulkLoad .default (BucketSet.items elements) s.map := by
  have lawful : Respects (crc32Of : String → UInt64) :=
    fun _ _ equal => congrArg crc32Of (eq_of_beq equal)
  refine ⟨lawful, ?_⟩
  intro made m s
  obtain ⟨lists, _, _, _, consistent⟩ := bulk_loads (ν := Nat) lawful ExactFactors.default
  obtain ⟨_, texts, _, setTexts, _⟩ := bulk_loads (ν := FixedInt .i64) lawful ExactFactors.default
  have three := lists [("a", 1), ("b", 2), ("a", 3)]
  have readMap : (BucketMap.fromJson crc32Of ExactFactors.default "\x7b\x7d").value = .ok m := rfl
  have readSet : (BucketSet.fromJson crc32Of ExactFactors.default "[]").value = .ok s := rfl
  obtain ⟨items, _, map⟩ := texts _ m readMap
  obtain ⟨elements, _, set⟩ := setTexts _ s readSet
  have buckets : made.value.buckets.length = 1 := by
    rw [three.buckets, ExactFactors.bucketCount_default]
    rfl
  refine ⟨buckets, ?_, ?_, readMap, ⟨items, map⟩, readSet, elements, set⟩
  · rw [three.length]
    simp [latest, earliest, List.eraseDupsBy, List.eraseDupsBy.loop]
  · have shrink : needsShrink ExactFactors.default made.value.length 1 = false :=
      (ExactFactors.needsShrink_eq_false_iff _).2 (by simp)
    rw [three.check, three.grow (consistent _), buckets, shrink]
    rfl

/-- One key five times: the two buckets that five items get are too many for one. -/
theorem bulk_check_fails :
    let items : List (FixedInt .i64 × FixedInt .i64) :=
      [10, 11, 12, 13, 14].map fun value => (.wrap 1, .wrap value)
    let m := (BucketMap.ofList crc32Of ExactFactors.default items).value
    Respects (crc32Of : FixedInt .i64 → UInt64) ∧ m.length = 1 ∧ m.buckets.length = 2 ∧
      needsShrink ExactFactors.default m.length m.buckets.length = true ∧ m.check = false := by
  have lawful : Respects (crc32Of : FixedInt .i64 → UInt64) :=
    fun _ _ equal => congrArg crc32Of (eq_of_beq equal)
  intro items
  have made := ofList_bulkLoad lawful ExactFactors.default items
  generalize (BucketMap.ofList crc32Of ExactFactors.default items).value = m at made ⊢
  have one : m.length = 1 := by
    rw [made.length]
    simp [items, latest, earliest, List.eraseDupsBy, List.eraseDupsBy.loop]
  have two : m.buckets.length = 2 := by
    rw [made.buckets, ExactFactors.bucketCount_default]
    simp [items]
  have few : needsShrink ExactFactors.default m.length m.buckets.length = true := by
    rw [one, two, ← Bool.not_eq_false, ExactFactors.needsShrink_eq_false_iff]
    norm_num [ExactFactors.default]
  exact ⟨lawful, one, two, few, by simp [made.check, few]⟩

end PersistentCollections
