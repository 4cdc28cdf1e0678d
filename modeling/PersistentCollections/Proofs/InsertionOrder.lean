import PersistentCollections.Number.Binary
import PersistentCollections.Proofs.ExactFactors
import PersistentCollections.Proofs.LoadRuns
import PersistentCollections.Proofs.MapOrder
import PersistentCollections.Proofs.VersionNames

/-! Inserting the same items in different orders. The maps on the way differ, and are
spread anew at different items, but whether that happens depends on the number of new keys
so far and not on the keys. So both maps come to the same load with the same reports, and
each bucket has the same items in the end, though not in the same order. All of this needs a
hash that respects the equality of keys. -/

namespace PersistentCollections

variable {π κ ν : Type} {hash : κ → UInt64} {policy : π}

namespace BucketMap

variable {m w : BucketMap π κ ν} {items others : List (κ × ν)}

/-- Two results of one load that have, bucket by bucket, the same items, and the same reports
on the way to them. -/
structure SameBuckets (r r' : Logged (BucketMap π κ ν)) : Prop where
  length : r.value.length = r'.value.length
  buckets : r.value.buckets.length = r'.value.buckets.length
  bucket : ∀ i, (r.value.bucket i).Perm (r'.value.bucket i)
  events : r.events = r'.events

theorem flatMap_range_ite {α : Type} (b : List α) (count i : Nat) :
    ((List.range count).flatMap fun j => if j = i then b else []) =
      if i < count then b else [] := by
  induction count with
  | zero => rfl
  | succ count ih =>
    rw [List.range_succ, List.flatMap_append, ih]
    by_cases last : count = i
    · simp [last]
    · have before : i < count + 1 ↔ i < count := by omega
      simp [last, before]

variable [BEq κ]

theorem WellFormed.bucket_eq_filter (h : m.WellFormed) (i : Nat) :
    m.bucket i = m.toList.filter fun item => m.place item.1 == i := by
  have own (j : Nat) : (m.bucket j).filter (fun item => m.place item.1 == i) =
      if j = i then m.bucket i else [] := by
    split
    · rename_i here
      subst here
      exact List.filter_eq_self.2 fun item member => beq_iff_eq.2 (h.place_eq member)
    · rename_i other
      refine List.filter_eq_nil_iff.2 fun item member => ?_
      rw [h.place_eq member, beq_iff_eq]
      exact other
  have behind : ¬i < m.buckets.length → m.bucket i = [] := fun outside => by
    rw [h.tabled.bucket_eq, List.getElem?_eq_none (by rw [h.tabled.table_length]; omega)]
    rfl
  rw [h.toList_eq, List.filter_flatMap]
  simp only [own, flatMap_range_ite]
  split
  · rfl
  · rename_i outside
    exact behind outside

theorem WellFormed.bucket_perm (hm : m.WellFormed) (hw : w.WellFormed) (hash : m.hash = w.hash)
    (buckets : m.buckets.length = w.buckets.length) (same : m.toList.Perm w.toList) (i : Nat) :
    (m.bucket i).Perm (w.bucket i) := by
  have place : m.place = w.place := by
    funext k
    rw [place, place, hash, buckets]
  rw [hm.bucket_eq_filter, hw.bucket_eq_filter, place]
  exact same.filter _

variable [EquivBEq κ]

variable [LoadPolicy π]

theorem Represents.insertAll_sameBuckets {base : List (κ × ν)} (h : Represents hash policy m base)
    (lawful : Respects hash) (distinct : Association.Distinct items) (same : items.Perm others) :
    SameBuckets (m.insertAll items) (m.insertAll others) := by
  have first := h.insertAll lawful items
  have second := (h.insertAll lawful others).perm (distinct.insertAll_congr same).symm
  obtain ⟨wellFormed, rfl, rfl, _⟩ := h
  have known := same.map fun item => m.contains item.1
  have loads : (m.insertAll items).map load = (m.insertAll others).map load := by
    rw [wellFormed.insertAll_load lawful distinct,
      wellFormed.insertAll_load lawful (distinct.perm same), Load.insertAll_perm known]
  have load : (m.insertAll items).value.load = (m.insertAll others).value.load :=
    congrArg Logged.value loads
  have events : ((m.insertAll items).map BucketMap.load).events =
      ((m.insertAll others).map BucketMap.load).events := congrArg Logged.events loads
  have buckets := congrArg Load.buckets load
  have places := first.wellFormed.bucket_perm second.wellFormed
    (first.hash_eq.trans second.hash_eq.symm) buckets (first.items.trans second.items.symm)
  exact ⟨congrArg Load.items load, buckets, places, events⟩

end BucketMap

namespace MapVersion

variable [BEq κ] [LoadPolicy π] {x : MapVersion π κ ν} {items others : List (κ × ν)}

theorem insertAll_renamed (x : MapVersion π κ ν) (some : items ≠ []) (l : Ledger) :
    Renamed l.next ((x.insertAll items l).1.map BucketMap.buckets) :=
  (insert_sharing (P := fun _ => True) fun _ _ _ h => h).foldlM_renamed
    (fun x item l _ => (insert_names x item.1 item.2 l).2) trivial some l

/-- Two versions of what came of one map. They are different versions if there are items at
all, so they are equal if each value that they hold equals itself. -/
structure Reordered [BEq ν] (items : List (κ × ν)) (y z : MapVersion π κ ν) : Prop where
  equal : y.equal z = true ↔ items = [] ∨ ∀ k v, y.value.get? k = some v → (v == v) = true
  equal_comm : z.equal y = y.equal z

variable [EquivBEq κ] [BEq ν]

omit [LoadPolicy π] in
theorem Reordered.equal_eq_false {y z : MapVersion π κ ν} {base : List (κ × ν)} {item : κ × ν}
    (h : Reordered items y z) (some : items ≠ [])
    (made : BucketMap.Represents hash policy y.value base) (member : item ∈ base)
    (differs : (item.2 == item.2) = false) : y.equal z = false := by
  refine Bool.eq_false_iff.2 fun equal => ?_
  have reflexive := (h.equal.1 equal).resolve_left some _ _ (made.get?_of_mem member)
  rw [differs] at reflexive
  contradiction

theorem insertAll_reordered {base : List (κ × ν)}
    (h : BucketMap.Represents hash policy x.value base)
    (lawful : Respects hash) (distinct : Association.Distinct items) (same : items.Perm others)
    {l later : Ledger} (old : x.stamp.Before l.next)
    (next : (x.insertAll items l).2.next ≤ later.next) :
    Reordered items (x.insertAll items l).1 (x.insertAll others later).1 := by
  by_cases some : items = []
  · subst some
    obtain rfl := same.nil_eq
    have self : x.equal x = true := by rw [equal, same_self, Bool.true_or]
    exact ⟨iff_of_true self (.inl rfl), rfl⟩
  · obtain ⟨valueY, namesY⟩ := x.insertAll_run items l
    obtain ⟨valueZ, _⟩ := x.insertAll_run others later
    have given := namesY.before old
    have new := x.insertAll_renamed (fun none => some (same.trans (none ▸ .nil)).eq_nil) later
    have other : (x.insertAll items l).1.same (x.insertAll others later).1 = false := by
      rw [same_comm]
      exact new.same_eq_false ⟨Nat.lt_of_lt_of_le given.1 next, Nat.lt_of_lt_of_le given.2 next⟩
    generalize (x.insertAll items l).1 = y at *
    generalize (x.insertAll others later).1 = z at *
    have hy := valueY ▸ h.insertAll lawful items
    have hz := valueZ ▸ (h.insertAll lawful others).perm (distinct.insertAll_congr same).symm
    have forward : y.equal z = y.value.equal z.value := by rw [equal, other, Bool.false_or]
    have backward : z.equal y = z.value.equal y.value := by
      rw [equal, same_comm, other, Bool.false_or]
    constructor
    · rw [forward, hy.equal_iff_self hz, or_iff_right some]
      exact hy.forall_value_iff (Q := fun v => (v == v) = true) lawful
    · rw [forward, backward, Bool.eq_iff_iff, hy.equal_iff_self hz,
        hz.equal_iff_self hy]

end MapVersion

/-! ### Equal keys that are told apart -/

namespace BucketMap

variable [BEq κ] [LoadPolicy π] {m : BucketMap π κ ν}

def insertedTable (hash : κ → UInt64) (p : π) (t : List (Bucket κ ν)) (item : κ × ν) :
    List (Bucket κ ν) :=
  let i := (hash item.1).toNat % t.length
  let known := Bucket.contains (t[i]?.getD []) item.1
  if !known && needsGrow p (itemCount t + 1) t.length then
    let s := (Spread.empty (bucketCount p (itemCount t + 1))).addAll hash (t.flatten ++ [item])
    s.buckets.toList
  else
    t.modify i (Bucket.put item)

variable [EquivBEq κ]

theorem Orderly.insert_table (h : m.Orderly) (k : κ) (v : ν) :
    (m.insert k v).value.table = insertedTable m.hash m.policy m.table (k, v) := by
  have asked : m.growsOn k =
      (!Bucket.contains (m.table[(m.hash k).toNat % m.table.length]?.getD []) k &&
        needsGrow m.policy (itemCount m.table + 1) m.table.length) := by
    rw [growsOn, contains_bucket, h.tabled.own_bucket, h.length, h.tabled.table_length]
    rfl
  rw [insertedTable, ← asked]
  rcases insert_cases m k v with ⟨full, made⟩ | ⟨fits, made⟩ <;> rw [made]
  · rw [if_pos full, table_spread, h.length]
    rfl
  · rw [if_neg (by simp [fits]), (h.putInPlace k v).2]

theorem Orderly.insertAll_length (h : m.Orderly) (items : List (κ × ν)) :
    (m.insertAll items).value.length =
      itemCount (items.foldl (insertedTable m.hash m.policy) m.table) := by
  rw [(h.insertAll items).length]
  refine congrArg itemCount ?_
  rw [BucketMap.insertAll, Logged.fold_value]
  induction items generalizing m with
  | nil => rfl
  | cons item rest ih =>
    obtain ⟨hash, policy⟩ := insert_settings m item.1 item.2
    rw [List.foldl_cons, ih (h.insert _ _), h.insert_table, hash, policy]
    rfl

/-- If the hash tells equal keys apart, then it depends on the number of buckets whether the
one takes the place of the other. -/
theorem length_of_told_apart {p : π} {a b c : κ} (v : ν) (same : (a == b) = true)
    (other : (a == c) = false) (hashes : hash a = 0 ∧ hash b = 1 ∧ hash c = 0)
    (one : needsGrow p 1 1 = false) (two : needsGrow p 2 1 = true ∧ bucketCount p 2 = 3)
    (three : needsGrow p 3 3 = false) :
    let m := ((empty hash p).insert a v).value
    (m.insertAll [(b, v), (c, v)]).value.length = 2 ∧
      (m.insertAll [(c, v), (b, v)]).value.length = 3 := by
  intro m
  have start : m.Reachable hash p := Reachable.empty.insert a v
  obtain ⟨orderly, hash_eq, policy_eq⟩ := start.orderly
  have table : m.table = [[(a, v)]] := by
    rw [(empty_orderly hash p).insert_table, table_empty]
    simp [empty, insertedTable, itemCount, one, Bucket.put, Nat.mod_one]
  have apart : (b == c) = false := by rw [← BEq.congr_left same, other]
  rw [orderly.insertAll_length, orderly.insertAll_length, table, hash_eq, policy_eq]
  simp [insertedTable, itemCount, Bucket.contains, Bucket.put, Spread.addAll, Spread.add,
    Spread.empty, same, other, apart, hashes, two, three]

end BucketMap

/-- A map of any history, with items that have no key twice, inserted in two orders: first in
the one, and at any later time in the other. -/
theorem insertion_order_irrelevant [BEq κ] [EquivBEq κ] [BEq ν] [LoadPolicy π]
    (lawful : Respects hash) {x : MapVersion π κ ν} (reachable : x.value.Reachable hash policy)
    {l : Ledger} (old : x.stamp.Before l.next) {items others : List (κ × ν)}
    (distinct : Association.Distinct items) (same : items.Perm others) :
    let y := x.insertAll items l
    BucketMap.SameBuckets (x.value.insertAll items) (x.value.insertAll others) ∧
      ∀ later : Ledger, y.2.next ≤ later.next →
        let z := x.insertAll others later
        y.1.value = (x.value.insertAll items).value ∧
          z.1.value = (x.value.insertAll others).value ∧ MapVersion.Reordered items y.1 z.1 := by
  obtain ⟨base, form⟩ := reachable.represents lawful
  refine ⟨form.insertAll_sameBuckets lawful distinct same, fun later next => ?_⟩
  exact ⟨(x.insertAll_run items l).1, (x.insertAll_run others later).1,
    MapVersion.insertAll_reordered form lawful distinct same old next⟩

theorem insertion_order_irrelevant_caseless :
    Respects (crc32Of : Caseless → UInt64) ∧
      let start := MapVersion.ofList crc32Of LoadFactors.default [(Caseless.mk "Ab", 1)] {}
      let words := [(Caseless.mk "aB", 2), (⟨"c"⟩, 3)]
      let y := start.1.insertAll words start.2
      let z := start.1.insertAll words.reverse y.2
      start.1.value.Reachable crc32Of .default ∧ Association.Distinct words ∧
        BucketMap.SameBuckets (start.1.value.insertAll words) (start.1.value.insertAll words.reverse) ∧
        y.1.equal z.1 = true := by
  refine ⟨crc32Of_respects, ?_⟩
  intro start words y z
  have reachable : start.1.value.Reachable crc32Of .default := .ofList _
  have distinct : Association.Distinct words := by
    have apart : ((⟨"aB"⟩ : Caseless) == ⟨"c"⟩) = false :=
      Bool.eq_false_iff.2 fun equal => by simpa using Caseless.beq_iff_letters.1 equal
    simp [Association.Distinct, words, apart]
  have old : start.1.stamp.Before start.2.next := ⟨Nat.two_pos, Nat.one_lt_two⟩
  obtain ⟨buckets, versions⟩ := insertion_order_irrelevant crc32Of_respects reachable old distinct
    (List.reverse_perm words).symm
  obtain ⟨_, _, reordered⟩ := versions y.2 (Nat.le_refl _)
  exact ⟨reachable, distinct, buckets, reordered.equal.2 (.inr fun _ v _ => beq_self_eq_true v)⟩

def ExactFactors.single : ExactFactors :=
  ⟨1, 1 / 2, LoadNumber.fault?_eq_none_iff.2 (by norm_num)⟩

/-- With numbers that differ from themselves the two maps differ; with a hash that tells two
spellings of one word apart they may even differ in length. -/
theorem insertion_order_matters :
    (let start := MapVersion.empty (κ := FixedInt .i64) (ν := Binary .double) crc32Of
      LoadFactors.default {}
    let items := [(.wrap 1, ⟨0x7ff8000000000000⟩), (.wrap 2, ⟨0x7ff8000000000000⟩)]
    let y := start.1.insertAll items start.2
    let z := start.1.insertAll items.reverse y.2
    Respects (crc32Of : FixedInt .i64 → UInt64) ∧ start.1.value.Reachable crc32Of .default ∧
      Association.Distinct items ∧ items.Perm items.reverse ∧ y.1.equal z.1 = false) ∧
    (let hash (k : Caseless) : UInt64 := if k.spelling = "A" then 1 else 0
    let m := ((BucketMap.empty hash ExactFactors.single).insert ⟨"a"⟩ 0).value
    let items : List (Caseless × Nat) := [(⟨"A"⟩, 0), (⟨"b"⟩, 0)]
    m.Reachable hash .single ∧ Association.Distinct items ∧ items.Perm items.reverse ∧
      (m.insertAll items).value.length = 2 ∧ (m.insertAll items.reverse).value.length = 3) := by
  constructor
  · intro start items y z
    have lawful : Respects (crc32Of : FixedInt .i64 → UInt64) :=
      fun _ _ equal => congrArg crc32Of (eq_of_beq equal)
    have distinct : Association.Distinct items := by
      simp only [Association.Distinct, items]
      decide
    have same : items.Perm items.reverse := (List.reverse_perm items).symm
    have form : BucketMap.Represents crc32Of LoadFactors.default start.1.value [] :=
      BucketMap.empty_represents crc32Of LoadFactors.default
    have reordered : MapVersion.Reordered items y.1 z.1 :=
      MapVersion.insertAll_reordered form lawful distinct same ⟨Nat.two_pos, Nat.one_lt_two⟩
        (Nat.le_refl _)
    have made : BucketMap.Represents crc32Of .default y.1.value items :=
      (start.1.insertAll_run items start.2).1 ▸
        (form.insertAll lawful items).perm distinct.insertAll_nil
    exact ⟨lawful, .empty, distinct, same,
      reordered.equal_eq_false (List.cons_ne_nil _ _) made List.mem_cons_self (by decide)⟩
  · intro hash m items
    have same : ((⟨"a"⟩ : Caseless) == ⟨"A"⟩) = true := Caseless.beq_iff_letters.2 (by simp)
    have other : ((⟨"a"⟩ : Caseless) == ⟨"b"⟩) = false :=
      Bool.eq_false_iff.2 fun equal => by simpa using Caseless.beq_iff_letters.1 equal
    have apart : ((⟨"A"⟩ : Caseless) == ⟨"b"⟩) = false := by rw [← BEq.congr_left same, other]
    have start : m.Reachable hash .single := BucketMap.Reachable.empty.insert _ _
    have hashes : hash ⟨"a"⟩ = 0 ∧ hash ⟨"A"⟩ = 1 ∧ hash ⟨"b"⟩ = 0 := by decide
    have one : needsGrow ExactFactors.single 1 1 = false := by decide +kernel
    have two : needsGrow ExactFactors.single 2 1 = true ∧ bucketCount ExactFactors.single 2 = 3 := by
      decide +kernel
    have three : needsGrow ExactFactors.single 3 3 = false := by decide +kernel
    exact ⟨start, by simp [Association.Distinct, items, apart], (List.reverse_perm items).symm,
      BucketMap.length_of_told_apart 0 same other hashes one two three⟩

end PersistentCollections
