import PersistentCollections.Proofs.Distribution
import PersistentCollections.Proofs.ItemWalks
import PersistentCollections.Proofs.Reachable

/-! The order in which a map lists its items. An update in place leaves every other item
where it stands. A map that is spread anew has in each bucket what belongs there of the
items that were listed before, in the order in which they were listed, and a new item
behind them. Everything that lists the items of a map lists them in this one order. -/

namespace PersistentCollections

variable {π κ ν : Type} {hash : κ → UInt64} {m w : BucketMap π κ ν}

namespace BucketMap

/-- One bucket of the other map has these items, and the others have what they had. -/
structure Replaced (m w : BucketMap π κ ν) (k : κ) (b : Bucket κ ν) : Prop where
  buckets : w.buckets.length = m.buckets.length
  own : w.bucket (m.place k) = b
  other : ∀ i, i ≠ m.place k → w.bucket i = m.bucket i

/-- Each of so many buckets has its share of these items. -/
structure Distributed (hash : κ → UInt64) (count : Nat) (items : List (κ × ν))
    (m : BucketMap π κ ν) : Prop where
  buckets : m.buckets.length = count
  share : ∀ i < count, m.bucket i = share hash count items i

/-- Where the items of a map stand, and where they stand after an update. -/
structure InOrder [BEq κ] [LoadPolicy π] (m : BucketMap π κ ν) : Prop where
  toList : m.toList = (List.range m.buckets.length).flatMap m.bucket
  place : ∀ i, ∀ item ∈ m.bucket i, m.place item.1 = i
  insert_new : ∀ k v, m.contains k = false →
    needsGrow m.policy (m.length + 1) m.buckets.length = false →
      Replaced m (m.insert k v).value k (m.bucket (m.place k) ++ [(k, v)])
  insert_known : ∀ k v, m.contains k = true → ∃ front old back,
    m.bucket (m.place k) = front ++ old :: back ∧ (old.1 == k) = true ∧
      Replaced m (m.insert k v).value k (front ++ (k, v) :: back)
  insert_grown : ∀ k v, m.contains k = false →
    needsGrow m.policy (m.length + 1) m.buckets.length = true →
      Distributed m.hash (bucketCount m.policy (m.length + 1)) (m.toList ++ [(k, v)])
        (m.insert k v).value
  erase_absent : ∀ k, m.contains k = false → (m.erase k).value = m
  erase_kept : ∀ k, m.contains k = true →
    needsShrink m.policy (m.length - 1) m.buckets.length = false → ∃ front old back,
      m.bucket (m.place k) = front ++ old :: back ∧ (old.1 == k) = true ∧
        Replaced m (m.erase k).value k (front ++ back)
  erase_shrunk : ∀ k, m.contains k = true →
    needsShrink m.policy (m.length - 1) m.buckets.length = true →
      Distributed m.hash (bucketCount m.policy (m.length - 1)) (Association.erase m.toList k)
        (m.erase k).value

/-- What lists the items of a map, or a part of each, lists them in order. -/
structure ListsInOrder (m : BucketMap π κ ν) : Prop where
  cursor : Walk.Lists m.cursor m.toList
  leafCursor : Walk.Lists m.leafCursor m.toList
  keys : m.keys = (Walk.rest m.cursor).1.map Prod.fst
  values : m.values = (Walk.rest m.cursor).1.map Prod.snd
  json : ∀ [JsonKey κ] [JsonValue ν],
    m.toJson? = ((Walk.rest m.cursor).1.mapM fun item =>
      (JsonKey.write? item.1).map fun key => (key, JsonValue.write item.2)).map Json.writeObject

variable [BEq κ] {k : κ} {v : ν}

theorem WellFormed.listsInOrder (h : m.WellFormed) : ListsInOrder m := by
  have all : (Walk.rest m.cursor).1 = m.toList :=
    ItemCursor.keeps_pending.rest_eq h.cursor_pending
  refine ⟨ItemCursor.keeps_pending.lists h.cursor_pending,
    ItemCursor.keeps_pending.lists h.leafCursor_pending, ?_, ?_, ?_⟩ <;> rw [all]
  · rfl
  · rfl
  · intros
    rfl

/-! ### Buckets and tables -/

namespace WellFormed

theorem distributed_of_table (h : m.WellFormed) {items : List (κ × ν)} {count : Nat}
    (table : m.table = distribute hash count items) : Distributed hash count items m := by
  constructor
  · rw [← h.tabled.table_length, table, length_distribute]
  · intro i inside
    rw [h.tabled.bucket_eq, table, getElem?_distribute hash items inside]
    rfl

theorem toList_eq (h : m.WellFormed) :
    m.toList = (List.range m.buckets.length).flatMap m.bucket :=
  h.tabled.toList_eq

theorem place_eq (h : m.WellFormed) {i : Nat} {item : κ × ν} (member : item ∈ m.bucket i) :
    m.place item.1 = i := by
  rw [h.tabled.bucket_eq] at member
  cases found : m.table[i]? with
  | none => simp [found] at member
  | some b =>
    rw [found] at member
    rw [place, ← h.tabled.table_length]
    exact h.placed.place i b found item member

end WellFormed

theorem Orderly.replaced_of_table (h : m.Orderly) (hw : w.Orderly) {f : Bucket κ ν → Bucket κ ν}
    (table : w.table = m.table.modify ((m.hash k).toNat % m.table.length) f) :
    Replaced m w k (f (m.bucket (m.place k))) := by
  have same : (m.hash k).toNat % m.table.length = m.place k := by rw [h.tabled.table_length, place]
  have own := h.tabled.own_bucket k
  rw [same] at table own
  refine ⟨?_, ?_, fun i other => ?_⟩
  · rw [← hw.tabled.table_length, table, List.length_modify, h.tabled.table_length]
  · rw [hw.tabled.bucket_eq, table, List.getElem?_modify_eq, own]
    rfl
  · rw [hw.tabled.bucket_eq, h.tabled.bucket_eq, table, List.getElem?_modify_ne _ _ (Ne.symm other)]

theorem Orderly.insert_in_place [EquivBEq κ] [LoadPolicy π] (h : m.Orderly)
    (fits : m.growsOn k = false) (v : ν) :
    Replaced m (m.insert k v).value k (Bucket.put (k, v) (m.bucket (m.place k))) := by
  obtain ⟨grows, _⟩ | ⟨_, made⟩ := insert_cases m k v
  · simp [fits] at grows
  · obtain ⟨orderly, table⟩ := h.putInPlace k v
    rw [made]
    exact h.replaced_of_table orderly table

theorem spread_distributed [EquivBEq κ] [LoadPolicy π] (lawful : Respects hash) (policy : π)
    (count : Nat) (items : List (κ × ν)) :
    Distributed hash (bucketCount policy count) (Bucket.gather items)
      (spread hash policy count items).value := by
  apply (spread_eq lawful policy count items).1.distributed_of_table
  exact table_spread_eq lawful policy count items

theorem WellFormed.inOrder [EquivBEq κ] [LoadPolicy π] (h : m.WellFormed)
    (lawful : Respects m.hash) : InOrder m where
  toList := h.toList_eq
  place _ _ member := h.place_eq member
  insert_new k v new fits := by
    have replaced := h.orderly.insert_in_place (k := k) (by simp [growsOn, fits]) v
    rwa [Bucket.put_of_new (contains_bucket m k ▸ new)] at replaced
  insert_known k v known := by
    have replaced := h.orderly.insert_in_place (k := k) (by simp [growsOn, known]) v
    have inside : Bucket.contains (m.bucket (m.place k)) (k, v).1 = true :=
      contains_bucket m k ▸ known
    obtain ⟨front, old, back, own, same, put⟩ := Bucket.put_of_known inside
    exact ⟨front, old, back, own, same, put ▸ replaced⟩
  insert_grown k v new full := by
    have distinct : Association.Distinct (m.toList ++ [(k, v)]) :=
      Bucket.distinct_concat h.placed.distinct (h.contains_eq lawful k ▸ new)
    obtain ⟨_, made⟩ | ⟨fits, _⟩ := insert_cases m k v
    · have items := spread_distributed lawful m.policy (m.length + 1) (m.toList ++ [(k, v)])
      rwa [Bucket.gather_of_distinct distinct, ← made] at items
    · simp [growsOn, new, full] at fits
  erase_absent k absent := by
    obtain ⟨_, made⟩ | ⟨known, _⟩ | ⟨known, _⟩ := erase_cases m k
    · exact made
    · simp [absent] at known
    · simp [absent] at known
  erase_kept k known fits := by
    have distinct := h.placed.bucket_distinct (List.mem_of_getElem? (h.tabled.own_bucket k))
    obtain ⟨front, old, back, own, same, left⟩ :=
      Bucket.erase_of_known distinct (contains_bucket m k ▸ known)
    rw [← h.orderly.sparse_eraseInPlace known] at fits
    obtain ⟨absent, _⟩ | ⟨_, few, _⟩ | ⟨_, _, made⟩ := erase_cases m k
    · simp [known] at absent
    · simp [fits] at few
    · refine ⟨front, old, back, own, same, ?_⟩
      obtain ⟨orderly, table⟩ := h.orderly.eraseInPlace k
      rw [made, ← left]
      exact h.orderly.replaced_of_table orderly table
  erase_shrunk k known few := by
    have distinct : Association.Distinct (Association.erase m.toList k) :=
      Association.distinct_erase h.placed.distinct
    have items := spread_distributed lawful m.policy (m.length - 1) (Association.erase m.toList k)
    rw [Bucket.gather_of_distinct distinct] at items
    rw [← h.orderly.sparse_eraseInPlace known] at few
    obtain ⟨absent, _⟩ | ⟨_, _, made⟩ | ⟨_, fits, _⟩ := erase_cases m k
    · simp [known] at absent
    · rw [made, (h.eraseInPlace_eq lawful k).2, (h.orderly.eraseInPlace_sizes known).2]
      exact items
    · simp [few] at fits

end BucketMap

structure BucketSet.ListsInOrder (s : BucketSet π κ) : Prop where
  cursor : Walk.Lists s.cursor (s.map.toList.map Prod.fst)
  leafCursor : Walk.Lists s.leafCursor (s.map.toList.map Prod.fst)
  json : ∀ [JsonValue κ], s.toJson = JsonValue.write (Walk.rest s.cursor).1

theorem BucketSet.listsInOrder [BEq κ] {s : BucketSet π κ} (h : s.map.WellFormed) :
    s.ListsInOrder := by
  have front : s.cursor.Pending (s.map.toList.map Prod.fst) := ⟨_, h.cursor_pending, rfl⟩
  have back : s.leafCursor.Pending (s.map.toList.map Prod.fst) := ⟨_, h.leafCursor_pending, rfl⟩
  refine ⟨KeyCursor.keeps_pending.lists front, KeyCursor.keeps_pending.lists back, ?_⟩
  intro
  rw [KeyCursor.keeps_pending.rest_eq front]
  rfl

/-- Whatever history a map has, it keeps its items in order and lists them in this order,
and so does the map under a set. Items that a map is made from come in the order in which
their keys came first, each as it came last. -/
theorem reachable_order [BEq κ] [EquivBEq κ] [LoadPolicy π] (lawful : Respects hash) (policy : π) :
    (∀ m : BucketMap π κ ν, m.Reachable hash policy → m.InOrder ∧ m.ListsInOrder) ∧
    (∀ items : List (κ × ν), BucketMap.Distributed hash (bucketCount policy items.length)
      (latest items) (BucketMap.ofList hash policy items).value) ∧
    ∀ s : BucketSet π κ, s.Reachable hash policy → s.map.InOrder ∧ s.ListsInOrder := by
  refine ⟨fun m reachable => ?_, fun items => ?_, fun s reachable => ?_⟩
  · obtain ⟨_, wellFormed, rfl, _, _⟩ := reachable.represents lawful
    exact ⟨wellFormed.inOrder lawful, wellFormed.listsInOrder⟩
  · rw [← Bucket.gather_eq_latest]
    exact BucketMap.spread_distributed lawful policy items.length items
  · obtain ⟨_, wellFormed, rfl, _, _⟩ := reachable.represents lawful
    exact ⟨wellFormed.inOrder lawful, BucketSet.listsInOrder wellFormed⟩

theorem reachable_order_caseless :
    Respects (crc32Of : Caseless → UInt64) ∧
      let made := BucketMap.ofList crc32Of LoadFactors.default
        [(Caseless.mk "Ab", 1), (⟨"c"⟩, 2), (⟨"aB"⟩, 3)]
      let more := (made.value.insert ⟨"d"⟩ 4).value
      let words := (BucketSet.ofList crc32Of LoadFactors.default [Caseless.mk "Ab", ⟨"aB"⟩]).value
      BucketMap.Distributed crc32Of (bucketCount LoadFactors.default 3)
        [(⟨"aB"⟩, 3), (⟨"c"⟩, 2)] made.value ∧
      (more.Reachable crc32Of .default ∧ more.InOrder ∧ more.ListsInOrder) ∧
        words.Reachable crc32Of .default ∧ words.map.InOrder ∧ words.ListsInOrder := by
  refine ⟨crc32Of_respects, ?_⟩
  intro made more words
  have same : ((⟨"Ab"⟩ : Caseless) == ⟨"aB"⟩) = true := Caseless.beq_iff_letters.2 (by simp)
  have apart (a : String) (different : ¬a.toList.map Char.toLower = ['c']) :
      ((⟨a⟩ : Caseless) == ⟨"c"⟩) = false :=
    Bool.eq_false_iff.2 fun equal => different (by simpa using Caseless.beq_iff_letters.1 equal)
  -- Of any three words, so that no word is evaluated.
  have kept (a b c : Caseless) (same : (a == c) = true) (first : (a == b) = false)
      (last : (c == b) = false) : latest [(a, 1), (b, 2), (c, 3)] = [(c, 3), (b, 2)] := by
    rw [BEq.comm] at same first
    simp [latest, earliest, List.eraseDupsBy, List.eraseDupsBy.loop, Association.find?, same, first,
      last]
  have start : made.value.Reachable crc32Of .default := .ofList _
  -- Without their types, which would be compared with the sets by evaluation.
  have grown := start.insert ⟨"d"⟩ 4
  have some : words.Reachable crc32Of .default := .ofList _
  obtain ⟨maps, bulk, sets⟩ := reachable_order (ν := Nat) crc32Of_respects LoadFactors.default
  have distributed := bulk [(Caseless.mk "Ab", 1), (⟨"c"⟩, 2), (⟨"aB"⟩, 3)]
  rw [kept _ _ _ same (apart "Ab" (by simp)) (apart "aB" (by simp))] at distributed
  exact ⟨distributed, ⟨grown, maps more grown⟩, some, sets words some⟩

end PersistentCollections
