import PersistentCollections.Hash.Feed
import PersistentCollections.Load.Factors
import PersistentCollections.Proofs.History
import PersistentCollections.Proofs.MapShape

/-! Versions of maps, and the association lists that they stand for. This holds of any
hash that respects equality of keys, also of a constant one, and of any load policy:
when a map changes its number of buckets, what it holds stays. -/

namespace PersistentCollections

theorem crc32Of_respects : Respects (crc32Of : Caseless → UInt64) := by
  intro a b equal
  have same : a.folded = b.folded := Caseless.beq_iff.1 equal
  change crc32 (feed a.folded) = crc32 (feed b.folded)
  rw [same]

namespace BucketMap

variable {π κ ν : Type} [BEq κ] {hash : κ → UInt64} {policy : π} {m : BucketMap π κ ν}
  {items : List (κ × ν)}

inductive VersionStep (κ ν : Type) where
  | insert (source : Nat) (k : κ) (v : ν)
  | erase (source : Nat) (k : κ)
  | insertAll (source : Nat) (items : List (κ × ν))

def version [LoadPolicy π] (versions : List (BucketMap π κ ν)) :
    VersionStep κ ν → Option (BucketMap π κ ν)
  | .insert source k v => versions[source]?.bind fun m => some (m.insert k v).value
  | .erase source k => versions[source]?.bind fun m => some (m.erase k).value
  | .insertAll source items => versions[source]?.bind fun m => some (m.insertAll items).value

/-- The same step on association lists. -/
def listVersion (versions : List (List (κ × ν))) : VersionStep κ ν → Option (List (κ × ν))
  | .insert source k v => versions[source]?.bind fun old => some (Association.insert old k v)
  | .erase source k => versions[source]?.bind fun old => some (Association.erase old k)
  | .insertAll source items =>
    versions[source]?.bind fun old => some (Association.insertAll old items)

structure Represents (hash : κ → UInt64) (policy : π) (m : BucketMap π κ ν)
    (items : List (κ × ν)) : Prop where
  wellFormed : m.WellFormed
  hash_eq : m.hash = hash
  policy_eq : m.policy = policy
  items : m.toList.Perm items

/-- What a map answers is what the association list does, for any key. -/
structure Answers [LoadPolicy π] (m : BucketMap π κ ν) (items : List (κ × ν)) : Prop where
  distinct : Association.Distinct items
  length : m.length = items.length
  find? : ∀ k, m.find? k = Association.find? items k
  get? : ∀ k, m.get? k = (Association.find? items k).map Prod.snd
  contains : ∀ k, m.contains k = (Association.find? items k).isSome
  after_insert : ∀ k v l, (m.insert k v).value.find? l = if k == l then some (k, v) else m.find? l
  after_erase : ∀ k l, (m.erase k).value.find? l = if k == l then none else m.find? l

theorem equal_iff [BEq ν] {w : BucketMap π κ ν} : m.equal w = true ↔ m.length = w.length ∧
    ∀ item ∈ m.toList, ∃ v, w.get? item.1 = some v ∧ (v == item.2) = true := by
  rw [equal, Bool.and_eq_true, beq_iff_eq, List.all_eq_true]
  refine and_congr_right fun _ => forall₂_congr fun ⟨k, v⟩ _ => ?_
  dsimp only
  cases w.get? k <;> simp

namespace Orderly

variable [EquivBEq κ]

theorem get?_of_mem (h : m.Orderly) {item : κ × ν} (member : item ∈ m.toList) :
    m.get? item.1 = some item.2 := by
  have found : m.find? item.1 = some item :=
    (h.bucket_distinct item.1).find?_eq_some_iff.2 ⟨h.mem_bucket member, BEq.rfl⟩
  rw [get?, found]
  rfl

theorem equal_iff_self [BEq ν] {w : BucketMap π κ ν} (hm : m.Orderly) (hw : w.Orderly)
    (same : m.toList.Perm w.toList) :
    m.equal w = true ↔ ∀ item ∈ m.toList, (item.2 == item.2) = true := by
  rw [equal_iff, ← hm.length_toList, ← hw.length_toList]
  constructor
  · rintro ⟨_, equal⟩ item member
    obtain ⟨v, read, alike⟩ := equal item member
    rw [hw.get?_of_mem (same.mem_iff.1 member)] at read
    obtain rfl := Option.some.inj read
    exact alike
  · intro reflexive
    refine ⟨same.length_eq, fun item member => ?_⟩
    exact ⟨item.2, hw.get?_of_mem (same.mem_iff.1 member), reflexive item member⟩

end Orderly

theorem empty_represents (hash : κ → UInt64) (policy : π) :
    Represents hash policy (empty hash policy : BucketMap π κ ν) [] := by
  refine ⟨empty_wellFormed hash policy, rfl, rfl, ?_⟩
  rw [toList_empty]

namespace Represents

theorem perm {other : List (κ × ν)} (h : Represents hash policy m items)
    (same : items.Perm other) : Represents hash policy m other :=
  ⟨h.wellFormed, h.hash_eq, h.policy_eq, h.items.trans same⟩

theorem length (h : Represents hash policy m items) : m.length = items.length := by
  rw [← h.wellFormed.length_toList, h.items.length_eq]

variable [EquivBEq κ]

theorem find?_eq (h : Represents hash policy m items) (lawful : Respects hash) (k : κ) :
    m.find? k = Association.find? items k := by
  obtain ⟨wellFormed, rfl, rfl, same⟩ := h
  have distinct : Association.Distinct m.toList := wellFormed.placed.distinct
  rw [wellFormed.find?_eq lawful, distinct.find?_perm same]

theorem distinct (h : Represents hash policy m items) : Association.Distinct items :=
  Association.Distinct.perm h.wellFormed.placed.distinct h.items

theorem get?_of_mem (h : Represents hash policy m items) {item : κ × ν} (member : item ∈ items) :
    m.get? item.1 = some item.2 :=
  h.wellFormed.orderly.get?_of_mem (h.items.mem_iff.2 member)

theorem exists_of_get? (h : Represents hash policy m items) (lawful : Respects hash) {k : κ}
    {v : ν} (read : m.get? k = some v) : ∃ item ∈ items, item.2 = v := by
  obtain ⟨item, found, value⟩ := Option.map_eq_some_iff.1 read
  rw [h.find?_eq lawful] at found
  exact ⟨item, List.mem_of_find?_eq_some found, value⟩

theorem forall_value_iff {Q : ν → Prop} (h : Represents hash policy m items)
    (lawful : Respects hash) : (∀ item ∈ items, Q item.2) ↔ ∀ k v, m.get? k = some v → Q v := by
  constructor
  · intro all k v read
    obtain ⟨item, member, rfl⟩ := h.exists_of_get? lawful read
    exact all item member
  · intro all item member
    exact all item.1 item.2 (h.get?_of_mem member)

theorem equal_iff_self [BEq ν] {hash' : κ → UInt64} {policy' : π} {w : BucketMap π κ ν}
    (hm : Represents hash policy m items) (hw : Represents hash' policy' w items) :
    m.equal w = true ↔ ∀ item ∈ items, (item.2 == item.2) = true := by
  have same : m.toList.Perm w.toList := hm.items.trans hw.items.symm
  simp only [hm.wellFormed.orderly.equal_iff_self hw.wellFormed.orderly same, hm.items.mem_iff]

variable [LoadPolicy π]

theorem insert (h : Represents hash policy m items) (lawful : Respects hash) (k : κ) (v : ν) :
    Represents hash policy (m.insert k v).value (Association.insert items k v) := by
  obtain ⟨wellFormed, rfl, rfl, same⟩ := h
  obtain ⟨made, contents⟩ := wellFormed.insert_eq lawful k v
  obtain ⟨hash, policy⟩ := insert_settings m k v
  exact ⟨made, hash, policy, contents.trans (Association.insert_perm same)⟩

theorem erase (h : Represents hash policy m items) (lawful : Respects hash) (k : κ) :
    Represents hash policy (m.erase k).value (Association.erase items k) := by
  obtain ⟨wellFormed, rfl, rfl, same⟩ := h
  obtain ⟨made, contents⟩ := wellFormed.erase_eq lawful k
  obtain ⟨hash, policy⟩ := erase_settings m k
  exact ⟨made, hash, policy, contents.trans (Association.erase_perm same)⟩

theorem insertAll (h : Represents hash policy m items) (lawful : Respects hash)
    (more : List (κ × ν)) :
    Represents hash policy (m.insertAll more).value (Association.insertAll items more) := by
  rw [BucketMap.insertAll, Logged.fold_value]
  induction more generalizing m items with
  | nil => exact h
  | cons item rest ih => exact ih (h.insert lawful item.1 item.2)

theorem answers (h : Represents hash policy m items) (lawful : Respects hash) :
    Answers m items where
  distinct := h.distinct
  length := h.length
  find? := h.find?_eq lawful
  get? k := by rw [BucketMap.get?, h.find?_eq lawful]
  contains k := by rw [BucketMap.contains, h.find?_eq lawful]
  after_insert k v l := by
    rw [(h.insert lawful k v).find?_eq lawful, Association.find?_insert, h.find?_eq lawful]
  after_erase k l := by
    rw [(h.erase lawful k).find?_eq lawful, Association.find?_erase, h.find?_eq lawful]

end Represents

variable [EquivBEq κ] [LoadPolicy π]

theorem ofList_represents (lawful : Respects hash) (policy : π) (items : List (κ × ν)) :
    Represents hash policy (ofList hash policy items).value (Association.insertAll [] items) := by
  obtain ⟨wellFormed, contents⟩ := spread_eq lawful policy items.length items
  exact ⟨wellFormed, rfl, rfl, contents⟩

theorem find?_ofList (lawful : Respects hash) (policy : π) (items : List (κ × ν)) (k : κ) :
    (ofList hash policy items).value.find? k = Association.find? items.reverse k := by
  rw [(ofList_represents lawful policy items).find?_eq lawful, Association.find?_insertAll_nil]

theorem version_simulates {versions : List (BucketMap π κ ν)} {lists : List (List (κ × ν))}
    (lawful : Respects hash) (h : List.Forall₂ (Represents hash policy) versions lists)
    (step : VersionStep κ ν) :
    Option.Rel (Represents hash policy) (version versions step) (listVersion lists step) := by
  have source (i : Nat) := History.rel_getElem? h i
  cases step with
  | insert i k v =>
    exact History.rel_bind (source i) fun _ _ old => .some (old.insert lawful k v)
  | erase i k => exact History.rel_bind (source i) fun _ _ old => .some (old.erase lawful k)
  | insertAll i more =>
    exact History.rel_bind (source i) fun _ _ old => .some (old.insertAll lawful more)

/-- Every version answers as the association list does that the same history makes. -/
theorem history_refines_associations (lawful : Respects hash) (policy : π)
    (steps : List (VersionStep κ ν)) :
    List.Forall₂ (fun m items => Represents hash policy m items ∧ Answers m items)
      (History.run version [empty hash policy] steps) (History.run listVersion [[]] steps) := by
  have related : List.Forall₂ (Represents hash policy)
      (History.run version [(empty hash policy : BucketMap π κ ν)] steps)
      (History.run listVersion [[]] steps) :=
    History.run_simulates (fun _ _ step h => version_simulates lawful h step)
      (.cons (empty_represents hash policy) .nil) steps
  exact related.imp fun _ _ h => ⟨h, h.answers lawful⟩

theorem history_refines_associations_caseless :
    Respects (crc32Of : Caseless → UInt64) ∧
      let first : BucketMap LoadFactors Caseless Nat := empty crc32Of .default
      let second := (first.insert ⟨"Ab"⟩ 1).value
      let third := (second.insert ⟨"aB"⟩ 2).value
      third.length = 1 ∧ third.find? ⟨"AB"⟩ = some (⟨"aB"⟩, 2) ∧ second.contains ⟨"ba"⟩ = false := by
  refine ⟨crc32Of_respects, ?_⟩
  intro first second third
  have all := history_refines_associations crc32Of_respects LoadFactors.default
    [.insert 0 ⟨"Ab"⟩ 1, .insert 1 ⟨"aB"⟩ 2]
  have same : ((⟨"Ab"⟩ : Caseless) == ⟨"aB"⟩) = true := Caseless.beq_iff_letters.2 (by simp)
  have shouted : ((⟨"aB"⟩ : Caseless) == ⟨"AB"⟩) = true := Caseless.beq_iff_letters.2 (by simp)
  have other : ((⟨"Ab"⟩ : Caseless) == ⟨"ba"⟩) = false :=
    Bool.eq_false_iff.2 fun equal => by simpa using Caseless.beq_iff_letters.1 equal
  have lists : History.run listVersion [[]]
      [.insert 0 (⟨"Ab"⟩ : Caseless) 1, .insert 1 ⟨"aB"⟩ 2] =
      [[], [(⟨"Ab"⟩, 1)], [(⟨"aB"⟩, 2)]] := by
    simp [History.run, History.next, listVersion, Association.insert, Association.erase, same]
  have versions : History.run version [first] [.insert 0 ⟨"Ab"⟩ 1, .insert 1 ⟨"aB"⟩ 2] =
      [first, second, third] := by
    simp [History.run, History.next, version, second, third]
  rw [lists, versions, List.forall₂_cons, List.forall₂_cons, List.forall₂_cons] at all
  obtain ⟨_, ⟨_, atSecond⟩, ⟨_, atThird⟩, _⟩ := all
  refine ⟨atThird.length, ?_, ?_⟩
  · rw [atThird.find?]
    simp [Association.find?, shouted]
  · rw [atSecond.contains]
    simp [Association.find?, other]

end BucketMap

end PersistentCollections
