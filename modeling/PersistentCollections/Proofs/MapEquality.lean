import PersistentCollections.Proofs.Reachable

/-! Equality of maps. `==` compares the lengths and looks up the items of one map in the
other. A map has each of its keys once and its length counts them, so this decides whether
the two answer alike for every key, whatever their hashes, policies and numbers of buckets
are. Maps that answer alike still do after the same update. -/

namespace PersistentCollections.BucketMap

variable {π κ ν : Type} [BEq κ] {m w : BucketMap π κ ν} {k l : κ} {v : ν}

/-- A map that finds each of its items under every key that equals its own. -/
structure Lawful (m : BucketMap π κ ν) : Prop where
  wellFormed : m.WellFormed
  respects : Respects m.hash

theorem contains_eq_isSome_get? (m : BucketMap π κ ν) (k : κ) :
    m.contains k = (m.get? k).isSome := by
  rw [contains, get?, Option.isSome_map]

theorem Reachable.lawful [EquivBEq κ] [LoadPolicy π] {hash : κ → UInt64} {policy : π}
    (h : m.Reachable hash policy) (respects : Respects hash) : m.Lawful := by
  obtain ⟨items, form⟩ := h.represents respects
  exact ⟨form.wellFormed, form.hash_eq ▸ respects⟩

namespace Lawful

theorem represents (h : m.Lawful) : Represents m.hash m.policy m m.toList :=
  ⟨h.wellFormed, rfl, rfl, .refl _⟩

variable [EquivBEq κ]

theorem contains_eq (h : m.Lawful) (k : κ) : m.contains k = Bucket.contains m.toList k :=
  h.wellFormed.contains_eq h.respects k

theorem get?_congr (h : m.Lawful) (equal : (k == l) = true) : m.get? k = m.get? l := by
  rw [get?, get?, h.wellFormed.find?_eq h.respects, h.wellFormed.find?_eq h.respects,
    Association.find?_congr equal]

theorem contains_congr (h : m.Lawful) (equal : (k == l) = true) : m.contains k = m.contains l := by
  rw [contains_eq_isSome_get?, contains_eq_isSome_get?, h.get?_congr equal]

theorem contains_of_mem (h : m.Lawful) {item : κ × ν} (member : item ∈ m.toList) :
    m.contains item.1 = true := by
  rw [h.contains_eq]
  exact List.any_eq_true.2 ⟨item, member, BEq.rfl⟩

theorem forall_mem_iff {Q : κ → Bool} (h : m.Lawful)
    (shared : ∀ k l, (k == l) = true → Q k = Q l) :
    (∀ item ∈ m.toList, Q item.1 = true) ↔ ∀ k, m.contains k = true → Q k = true := by
  constructor
  · intro all k known
    rw [h.contains_eq] at known
    obtain ⟨item, member, matching⟩ := List.any_eq_true.1 known
    rw [← shared item.1 k matching]
    exact all item member
  · exact fun all item member => all item.1 (h.contains_of_mem member)

theorem mem_of_get? (h : m.Lawful) (read : m.get? k = some v) :
    ∃ item ∈ m.toList, (item.1 == k) = true ∧ item.2 = v := by
  obtain ⟨item, found, value⟩ := Option.map_eq_some_iff.1 read
  rw [h.wellFormed.find?_eq h.respects, h.represents.distinct.find?_eq_some_iff] at found
  exact ⟨item, found.1, found.2, value⟩

/-! ### Lengths and keys -/

theorem mem_covered (hm : m.Lawful) (hw : w.Lawful)
    (covered : ∀ k, m.contains k = true → w.contains k = true) :
    ∀ item ∈ m.toList, Bucket.contains w.toList item.1 = true := by
  intro item member
  rw [← hw.contains_eq]
  exact covered item.1 (hm.contains_of_mem member)

theorem length_le (hm : m.Lawful) (hw : w.Lawful)
    (covered : ∀ k, m.contains k = true → w.contains k = true) : m.length ≤ w.length := by
  rw [← hm.wellFormed.length_toList, ← hw.wellFormed.length_toList]
  exact hm.represents.distinct.length_le (hm.mem_covered hw covered)

theorem contains_iff_of_length_le (hm : m.Lawful) (hw : w.Lawful)
    (covered : ∀ k, m.contains k = true → w.contains k = true) (fits : w.length ≤ m.length) :
    ∀ k, w.contains k = true ↔ m.contains k = true := by
  rw [← hm.wellFormed.length_toList, ← hw.wellFormed.length_toList] at fits
  have back := hm.represents.distinct.contains_of_length_le (hm.mem_covered hw covered) fits
  simp only [← hm.contains_eq] at back
  exact fun k => ⟨(hw.forall_mem_iff fun _ _ => hm.contains_congr).1 back k, covered k⟩

/-! ### Updates -/

variable [LoadPolicy π]

theorem insert (h : m.Lawful) (k : κ) (v : ν) : (m.insert k v).value.Lawful := by
  have made := h.represents.insert h.respects k v
  exact ⟨made.wellFormed, made.hash_eq ▸ h.respects⟩

theorem erase (h : m.Lawful) (k : κ) : (m.erase k).value.Lawful := by
  have made := h.represents.erase h.respects k
  exact ⟨made.wellFormed, made.hash_eq ▸ h.respects⟩

theorem insertAll (h : m.Lawful) (items : List (κ × ν)) : (m.insertAll items).value.Lawful := by
  have made := h.represents.insertAll h.respects items
  exact ⟨made.wellFormed, made.hash_eq ▸ h.respects⟩

theorem contains_insertAll (h : m.Lawful) (items : List (κ × ν)) (k : κ) :
    (m.insertAll items).value.contains k = (Bucket.contains items k || m.contains k) := by
  have made := h.represents.insertAll h.respects items
  rw [contains, made.find?_eq h.respects, Association.find?_insertAll, Option.isSome_or,
    ← Association.contains_eq, ← Association.contains_eq, ← h.contains_eq, Bucket.contains,
    List.any_reverse, Bucket.contains]

theorem get?_insert (h : m.Lawful) (k : κ) (v : ν) (l : κ) :
    (m.insert k v).value.get? l = if k == l then some v else m.get? l := by
  rw [get?, (h.represents.answers h.respects).after_insert, apply_ite (Option.map Prod.snd)]
  rfl

theorem get?_erase (h : m.Lawful) (k l : κ) :
    (m.erase k).value.get? l = if k == l then none else m.get? l := by
  rw [get?, (h.represents.answers h.respects).after_erase, apply_ite (Option.map Prod.snd)]
  rfl

end Lawful

/-! ### Equality -/

variable [BEq ν]

/-- The two maps answer alike: for a key neither has a value, or both have equal ones. -/
def Alike (m w : BucketMap π κ ν) : Prop :=
  ∀ k, Option.Rel (fun v u => (v == u) = true) (m.get? k) (w.get? k)

namespace Alike

variable {r : BucketMap π κ ν}

theorem contains_eq (h : m.Alike w) (k : κ) : m.contains k = w.contains k := by
  rw [contains_eq_isSome_get?, contains_eq_isSome_get?]
  have both := h k
  generalize m.get? k = v at both
  generalize w.get? k = u at both
  cases both <;> rfl

theorem of_mem [EquivBEq κ] (h : m.Alike w) (hm : m.Lawful) {item : κ × ν}
    (member : item ∈ m.toList) : ∃ u, w.get? item.1 = some u ∧ (item.2 == u) = true := by
  have both := h item.1
  rw [hm.represents.get?_of_mem member] at both
  generalize w.get? item.1 = found at both ⊢
  cases both with
  | some equal => exact ⟨_, rfl, equal⟩

theorem erase [EquivBEq κ] [LoadPolicy π] (h : m.Alike w) (hm : m.Lawful) (hw : w.Lawful)
    (k : κ) : (m.erase k).value.Alike (w.erase k).value := by
  intro l
  rw [hm.get?_erase, hw.get?_erase]
  split
  · exact .none
  · exact h l

variable [EquivBEq ν]

theorem refl (m : BucketMap π κ ν) : m.Alike m := by
  intro k
  cases m.get? k with
  | none => exact .none
  | some v => exact .some BEq.rfl

theorem symm (h : m.Alike w) : w.Alike m := by
  intro k
  have both := h k
  generalize m.get? k = v at both
  generalize w.get? k = u at both
  cases both with
  | none => exact .none
  | some equal => exact .some (BEq.symm equal)

theorem trans (first : m.Alike w) (second : w.Alike r) : m.Alike r := by
  intro k
  have left := first k
  have right := second k
  generalize m.get? k = v at left
  generalize w.get? k = u at left right
  generalize r.get? k = t at right
  cases left with
  | none => exact right
  | some equal =>
    cases right with
    | some equal' => exact .some (BEq.trans equal equal')

theorem insert [EquivBEq κ] [LoadPolicy π] (h : m.Alike w) (hm : m.Lawful) (hw : w.Lawful)
    (k : κ) (v : ν) : (m.insert k v).value.Alike (w.insert k v).value := by
  intro l
  rw [hm.get?_insert, hw.get?_insert]
  split
  · exact .some BEq.rfl
  · exact h l

end Alike

/-! ### What is decided -/

section

variable [EquivBEq κ] [EquivBEq ν] (hm : m.Lawful) (hw : w.Lawful)

include hm hw

/-- The items of `m` are looked up in `w`. No other key is in `w`, since it is as long. -/
theorem alike_of_equal (equal : m.equal w = true) : m.Alike w := by
  obtain ⟨length, found⟩ := equal_iff.1 equal
  have known : ∀ item ∈ m.toList, w.contains item.1 = true := by
    intro item member
    obtain ⟨v, read, _⟩ := found item member
    rw [contains_eq_isSome_get?, read]
    rfl
  have covered := (hm.forall_mem_iff fun _ _ => hw.contains_congr).1 known
  have same := hm.contains_iff_of_length_le hw covered (Nat.le_of_eq length.symm)
  intro k
  cases read : m.get? k with
  | none =>
    have absent : w.get? k = none := by
      have both := same k
      rw [contains_eq_isSome_get?, contains_eq_isSome_get?, read] at both
      simpa using both
    rw [absent]
    exact .none
  | some v =>
    -- It is listed in the spelling that `m` has, and `w` finds it under any.
    obtain ⟨item, member, matching, rfl⟩ := hm.mem_of_get? read
    obtain ⟨u, other, equal⟩ := found item member
    rw [← hw.get?_congr matching, other]
    exact .some (BEq.symm equal)

theorem Alike.equal (h : m.Alike w) : m.equal w = true := by
  have covered (k : κ) (known : m.contains k = true) : w.contains k = true := by
    rwa [← h.contains_eq]
  have back (k : κ) (known : w.contains k = true) : m.contains k = true := by
    rwa [h.contains_eq]
  have length := Nat.le_antisymm (hm.length_le hw covered) (hw.length_le hm back)
  refine equal_iff.2 ⟨length, fun item member => ?_⟩
  obtain ⟨u, read, equal⟩ := h.of_mem hm member
  exact ⟨u, read, BEq.symm equal⟩

theorem equal_iff_alike : m.equal w = true ↔ m.Alike w :=
  ⟨alike_of_equal hm hw, Alike.equal hm hw⟩

end

end PersistentCollections.BucketMap
