import PersistentCollections.Proofs.MapEquality
import PersistentCollections.Proofs.SetAlgebra

/-! Comparisons of sets. A set lists each of its elements once and its length counts them,
so one inclusion and two lengths tell whether two sets are equal, and a longer set is in no
shorter one. What is compared is what the sets contain, up to equality of elements: their
hashes, policies and buckets do not matter, nor the order in which elements came or are listed. -/

namespace PersistentCollections

/-- A partial order, if what `same` relates counts as one thing. -/
structure OrdersUpTo {γ : Type} (same below : γ → γ → Prop) : Prop where
  equivalence : Equivalence same
  refl : ∀ a b, same a b → below a b
  antisymm : ∀ a b, below a b → below b a → same a b
  trans : ∀ a b c, below a b → below b c → below a c

namespace BucketSet

variable {π κ : Type} [BEq κ] {s w : BucketSet π κ}

/-- Each comparison is the relation between what the two sets contain. -/
structure Compares [LoadPolicy π] (s w : BucketSet π κ) : Prop where
  isSubset : s.isSubset w = true ↔ ∀ x, s.contains x = true → w.contains x = true
  isSuperset : s.isSuperset w = true ↔ w.isSubset s = true
  isDisjoint : s.isDisjoint w = true ↔ ∀ x, ¬(s.contains x = true ∧ w.contains x = true)
  equal : s.equal w = true ↔ ∀ x, s.contains x = w.contains x
  /-- The order in which the elements are listed does not matter. -/
  equal_of_perm : s.toList.Perm w.toList → s.equal w = true
  /-- Nor does the order in which elements are added. -/
  insertAll_equal : s.equal w = true → ∀ items others : List κ, items.Perm others →
    (s.insertAll items).value.equal (w.insertAll others).value = true

def Made [LoadPolicy π] (s : BucketSet π κ) : Prop :=
  ∃ hash policy, Respects hash ∧ s.Reachable hash policy

variable [EquivBEq κ]

theorem Made.lawful [LoadPolicy π] (h : s.Made) : s.map.Lawful := by
  obtain ⟨hash, policy, respects, reachable⟩ := h
  obtain ⟨items, form⟩ := reachable.represents respects
  exact ⟨form.wellFormed, form.hash_eq ▸ respects⟩

theorem contains_toList (h : s.map.Lawful) (x : κ) : s.contains x = s.toList.any (· == x) :=
  Represents.contains_eq ⟨h.wellFormed, rfl, rfl, .refl _⟩ h.respects x

theorem contains_congr (h : s.map.Lawful) {a b : κ} (equal : (a == b) = true) :
    s.contains a = s.contains b := h.contains_congr equal

theorem all_toList_iff {Q : κ → Bool} (h : s.map.Lawful)
    (shared : ∀ a b, (a == b) = true → Q a = Q b) :
    s.toList.all Q = true ↔ ∀ x, s.contains x = true → Q x = true := by
  rw [toList, BucketMap.keys, List.all_map, List.all_eq_true]
  exact h.forall_mem_iff shared

theorem isSubset_iff (hs : s.map.Lawful) (hw : w.map.Lawful) :
    s.isSubset w = true ↔ ∀ x, s.contains x = true → w.contains x = true := by
  rw [isSubset, Bool.and_eq_true, decide_eq_true_iff,
    all_toList_iff hs fun _ _ => contains_congr hw]
  exact and_iff_right_of_imp (hs.length_le hw)

theorem isDisjoint_iff (hs : s.map.Lawful) (hw : w.map.Lawful) :
    s.isDisjoint w = true ↔ ∀ x, ¬(s.contains x = true ∧ w.contains x = true) := by
  have shared (a b : κ) (equal : (a == b) = true) : (!w.contains a) = !w.contains b :=
    congrArg not (contains_congr hw equal)
  rw [isDisjoint, all_toList_iff hs shared]
  simp

theorem equal_iff (hs : s.map.Lawful) (hw : w.map.Lawful) :
    s.equal w = true ↔ ∀ x, s.contains x = w.contains x := by
  rw [equal, Bool.and_eq_true, beq_iff_eq, isSubset_iff hs hw]
  constructor
  · rintro ⟨length, inclusion⟩ x
    -- As many elements: the other inclusion needs no looking up.
    have back := hs.contains_iff_of_length_le hw inclusion (Nat.le_of_eq length.symm)
    exact Bool.eq_iff_iff.2 (back x).symm
  · intro same
    have inclusion (x : κ) (known : s.contains x = true) : w.contains x = true := by rwa [← same]
    have back (x : κ) (known : w.contains x = true) : s.contains x = true := by rwa [same]
    exact ⟨Nat.le_antisymm (hs.length_le hw inclusion) (hw.length_le hs back), inclusion⟩

variable [LoadPolicy π]

theorem contains_ofList {hash : κ → UInt64} (respects : Respects hash) (policy : π)
    (items : List κ) (x : κ) :
    (ofList hash policy items).value.contains x = items.any (· == x) := by
  have found : (ofList hash policy items).value.contains x = (Association.find? _ x).isSome :=
    congrArg Option.isSome (BucketMap.find?_ofList respects policy (BucketSet.items items) x)
  rw [found, ← Association.contains_eq, Bucket.contains, List.any_reverse]
  exact contains_items items x

theorem lawful_insertAll (h : s.map.Lawful) (items : List κ) :
    (s.insertAll items).value.map.Lawful := by
  rw [insertAll_map]
  exact h.insertAll _

theorem contains_insertAll (h : s.map.Lawful) (items : List κ) (x : κ) :
    (s.insertAll items).value.contains x = (items.any (· == x) || s.contains x) := by
  rw [contains, insertAll_map, h.contains_insertAll]
  exact congrArg (· || s.contains x) List.any_map

theorem compares (hs : s.map.Lawful) (hw : w.map.Lawful) : Compares s w where
  isSubset := isSubset_iff hs hw
  isSuperset := Iff.rfl
  isDisjoint := isDisjoint_iff hs hw
  equal := equal_iff hs hw
  equal_of_perm listed := by
    refine (equal_iff hs hw).2 fun x => ?_
    rw [contains_toList hs, contains_toList hw, listed.any_eq]
  insertAll_equal equal items others reordered := by
    refine (equal_iff (lawful_insertAll hs items) (lawful_insertAll hw others)).2 fun x => ?_
    rw [contains_insertAll hs, contains_insertAll hw, reordered.any_eq, (equal_iff hs hw).1 equal]

theorem ordersUpTo_equal :
    OrdersUpTo (fun s w : {s : BucketSet π κ // s.Made} => s.1.equal w.1 = true)
      (fun s w => s.1.isSubset w.1 = true) := by
  have decides (s w : {s : BucketSet π κ // s.Made}) : Compares s.1 w.1 :=
    compares s.2.lawful w.2.lawful
  simp only [(decides _ _).equal, (decides _ _).isSubset]
  constructor
  case equivalence =>
    exact ⟨fun _ _ => rfl, fun same x => (same x).symm, fun h h' x => (h x).trans (h' x)⟩
  case refl => exact fun _ _ same x known => same x ▸ known
  case antisymm => exact fun _ _ first second x => Bool.eq_iff_iff.2 ⟨first x, second x⟩
  case trans => exact fun _ _ _ first second x known => second x (first x known)

/-- Sets of any histories, hashes and policies are compared by what they contain. So
inclusion orders them, and `==` tells which of them are the same. -/
theorem comparisons_decide_relations :
    (∀ s w : BucketSet π κ, s.Made → w.Made → Compares s w) ∧
      OrdersUpTo (fun s w : {s : BucketSet π κ // s.Made} => s.1.equal w.1 = true)
        (fun s w => s.1.isSubset w.1 = true) :=
  ⟨fun _ _ hs hw => compares hs.lawful hw.lawful, ordersUpTo_equal⟩

theorem comparisons_decide_relations_caseless :
    let s := (ofList crc32Of LoadFactors.default [Caseless.mk "Ab", ⟨"c"⟩]).value
    let w := (ofList (fun _ => 0) (LoadFactors.mk 4 1) [Caseless.mk "C", ⟨"aB"⟩]).value
    s.Made ∧ w.Made ∧ s.equal w = true ∧ w.isSuperset s = true ∧ s.isDisjoint w = false := by
  intro s w
  obtain ⟨decides, order⟩ := comparisons_decide_relations (π := LoadFactors) (κ := Caseless)
  have hs : s.Made := ⟨crc32Of, .default, crc32Of_respects, .ofList _⟩
  have hw : w.Made := ⟨fun _ => 0, ⟨4, 1⟩, fun _ _ _ => rfl, .ofList _⟩
  have first (x : Caseless) : s.contains x = ((⟨"Ab"⟩ == x) || ⟨"c"⟩ == x) :=
    (contains_ofList crc32Of_respects _ _ x).trans (by simp)
  have second (x : Caseless) : w.contains x = ((⟨"C"⟩ == x) || ⟨"aB"⟩ == x) :=
    (contains_ofList (fun _ _ _ => rfl) _ _ x).trans (by simp)
  have equal : s.equal w = true := by
    refine (decides s w hs hw).equal.2 fun x => ?_
    have word : ((⟨"Ab"⟩ : Caseless) == x) = (⟨"aB"⟩ == x) :=
      BEq.congr_left (Caseless.beq_iff_letters.2 (by simp))
    have letter : ((⟨"c"⟩ : Caseless) == x) = (⟨"C"⟩ == x) :=
      BEq.congr_left (Caseless.beq_iff_letters.2 (by simp))
    rw [first, second, word, letter, Bool.or_comm]
  refine ⟨hs, hw, equal, ?_, ?_⟩
  · exact (decides w s hw hs).isSuperset.2 (order.refl ⟨s, hs⟩ ⟨w, hw⟩ equal)
  · refine Bool.eq_false_iff.2 fun disjoint => ?_
    refine (decides s w hs hw).isDisjoint.1 disjoint ⟨"c"⟩ ⟨?_, ?_⟩
    · rw [first]
      simp
    · rw [← (decides s w hs hw).equal.1 equal, first]
      simp

end BucketSet

end PersistentCollections
