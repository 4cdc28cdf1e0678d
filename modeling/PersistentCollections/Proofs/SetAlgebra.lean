import PersistentCollections.Proofs.Reachable

/-! Union, intersection, difference and symmetric difference. Each of them has the
elements that its name says, whatever hash and policy the second operand has, and each
of its elements is stored as one of the operands stores it. Elements are counted up to
equality. -/

namespace PersistentCollections.BucketSet

variable {π κ : Type} [BEq κ] {s w r : BucketSet π κ} {hash hash' : κ → UInt64} {policy policy' : π}
  {elements : List κ} {member : κ → Bool} {stored : κ → Prop}

def Apart (elements : List κ) : Prop := elements.Pairwise fun a b => (a == b) = false

/-- There are so many elements with a property, equal ones counted once. -/
def NumberOf (member : κ → Bool) (n : Nat) : Prop :=
  ∃ elements : List κ, Apart elements ∧ (∀ x, elements.any (· == x) = member x) ∧
    elements.length = n

/-- The set with these settings and these elements. -/
structure Composed (hash : κ → UInt64) (policy : π) (member : κ → Bool) (stored : κ → Prop)
    (r : BucketSet π κ) : Prop where
  contains : ∀ x, r.contains x = member x
  length : ∀ n, NumberOf member n ↔ r.length = n
  /-- In which spelling they are stored. -/
  stored : ∀ a, a ∈ r.toList ↔ stored a
  hash_eq : r.map.hash = hash
  policy_eq : r.map.policy = policy

def items (elements : List κ) : List (κ × Unit) := elements.map fun a => (a, ())

theorem distinct_items : Association.Distinct (items elements) ↔ Apart elements :=
  List.pairwise_map

theorem contains_items (elements : List κ) (x : κ) :
    Bucket.contains (items elements) x = elements.any (· == x) :=
  List.any_map

omit [BEq κ] in
theorem items_toList (s : BucketSet π κ) : items s.toList = s.map.toList := by
  rw [items, toList, BucketMap.keys, List.map_map]
  exact List.map_id _

omit [BEq κ] in
theorem keys_items (elements : List κ) : (items elements).map Prod.fst = elements := by
  rw [items, List.map_map]
  exact List.map_id _

theorem Apart.numberOf_iff [EquivBEq κ] (apart : Apart elements)
    (members : ∀ x, elements.any (· == x) = member x) {n : Nat} :
    NumberOf member n ↔ elements.length = n := by
  constructor
  · rintro ⟨others, othersApart, same, rfl⟩
    have least {xs ys : List κ} (xsApart : Apart xs)
        (covered : ∀ x, xs.any (· == x) = ys.any (· == x)) : xs.length ≤ ys.length := by
      have count : (items xs).length ≤ (items ys).length := by
        refine (distinct_items.2 xsApart).length_le fun item inside => ?_
        rw [contains_items, ← covered, ← contains_items]
        exact List.any_eq_true.2 ⟨item, inside, BEq.rfl⟩
      simpa [items] using count
    exact Nat.le_antisymm (least apart fun x => (members x).trans (same x).symm)
      (least othersApart fun x => (same x).trans (members x).symm)
  · exact fun count => ⟨elements, apart, members, count⟩

theorem any_filter {pick : κ → Bool} {x : κ} (shared : ∀ a, (a == x) = true → pick a = pick x)
    (elements : List κ) :
    (elements.filter pick).any (· == x) = (elements.any (· == x) && pick x) := by
  rw [List.any_filter]
  induction elements with
  | nil => rfl
  | cons a rest ih =>
    rw [List.any_cons, List.any_cons, ih]
    cases equal : a == x with
    | true => cases chosen : pick x <;> simp [shared a equal, chosen]
    | false => simp

/-! ### What a set holds -/

structure Represents (hash : κ → UInt64) (policy : π) (s : BucketSet π κ) (elements : List κ) :
    Prop where
  wellFormed : s.map.WellFormed
  hash_eq : s.map.hash = hash
  policy_eq : s.map.policy = policy
  elements : s.toList.Perm elements

theorem represents_of_map (h : BucketMap.Represents hash policy s.map (items elements)) :
    Represents hash policy s elements :=
  ⟨h.wellFormed, h.hash_eq, h.policy_eq, keys_items elements ▸ h.items.map Prod.fst⟩

theorem ofList_represents [EquivBEq κ] [LoadPolicy π] (lawful : Respects hash) (policy : π)
    (apart : Apart elements) :
    Represents hash policy (ofList hash policy elements).value elements := by
  have made := BucketMap.ofList_represents lawful policy (items elements)
  exact represents_of_map (made.perm (distinct_items.2 apart).insertAll_nil)

namespace Represents

theorem map (h : Represents hash policy s elements) :
    BucketMap.Represents hash policy s.map (items elements) := by
  refine ⟨h.wellFormed, h.hash_eq, h.policy_eq, ?_⟩
  rw [← items_toList]
  exact h.elements.map _

theorem length (h : Represents hash policy s elements) : s.length = elements.length :=
  h.map.length.trans (List.length_map _)

variable [EquivBEq κ]

theorem apart (h : Represents hash policy s elements) : Apart elements :=
  distinct_items.1 h.map.distinct

theorem contains_eq (h : Represents hash policy s elements) (lawful : Respects hash) (x : κ) :
    s.contains x = elements.any (· == x) := by
  rw [← contains_items, Association.contains_eq, ← h.map.find?_eq lawful]
  rfl

theorem contains_congr (h : Represents hash policy s elements) (lawful : Respects hash) {a x : κ}
    (equal : (a == x) = true) : s.contains a = s.contains x := by
  rw [h.contains_eq lawful, h.contains_eq lawful]
  exact congrArg elements.any (funext fun b => BEq.congr_right equal)

theorem contains_of_mem (h : Represents hash policy s elements) (lawful : Respects hash) {a : κ}
    (inside : a ∈ elements) : s.contains a = true := by
  rw [h.contains_eq lawful]
  exact List.any_eq_true.2 ⟨a, inside, BEq.rfl⟩

theorem equal {w : BucketSet π κ} (hs : Represents hash policy s elements)
    (hw : Represents hash' policy' w elements) (lawful : Respects hash') : s.equal w = true := by
  have all : s.toList.all w.contains = true := List.all_eq_true.2 fun a inside =>
    hw.contains_of_mem lawful (hs.elements.mem_iff.1 inside)
  rw [BucketSet.equal, isSubset, all, hs.length, hw.length]
  simp

theorem composed (h : Represents hash policy s elements) (lawful : Respects hash)
    (members : ∀ x, elements.any (· == x) = member x) (spelled : ∀ a, a ∈ elements ↔ stored a) :
    Composed hash policy member stored s where
  contains x := (h.contains_eq lawful x).trans (members x)
  length _ := h.length ▸ h.apart.numberOf_iff members
  stored a := h.elements.mem_iff.trans (spelled a)
  hash_eq := h.hash_eq
  policy_eq := h.policy_eq

variable [LoadPolicy π]

theorem rebuild (h : Represents hash policy s elements) (lawful : Respects hash) {others : List κ}
    (apart : Apart others) : Represents hash policy (s.rebuild others).value others := by
  obtain ⟨_, rfl, rfl, _⟩ := h
  exact ofList_represents lawful s.map.policy apart

theorem insertAll (h : Represents hash policy s elements) (lawful : Respects hash)
    {others : List κ} (apart : Apart others) :
    Represents hash policy (s.insertAll others).value
      (others ++ elements.filter fun a => !others.any (· == a)) := by
  have made := h.map.insertAll lawful (items others)
  have kept : (Association.insertAll (items elements) (items others)).Perm _ :=
    (distinct_items.2 apart).insertAll_append_perm
  have back : items others ++ (items elements).filter
      (fun item => !Bucket.contains (items others) item.1) =
      items (others ++ elements.filter fun a => !others.any (· == a)) := by
    simp only [contains_items]
    rw [items, items, items, List.map_append, List.filter_map]
    rfl
  rw [items, ← insertAll_map] at made
  exact represents_of_map (back ▸ made.perm kept)

end Represents

theorem Reachable.represents_toList [EquivBEq κ] [LoadPolicy π] (h : s.Reachable hash policy)
    (lawful : Respects hash) : Represents hash policy s s.toList := by
  obtain ⟨_, form⟩ := h.represents lawful
  exact ⟨form.wellFormed, form.hash_eq, form.policy_eq, .refl _⟩

/-! ### The operations -/

namespace Represents

variable [EquivBEq κ] (hs : Represents hash policy s s.toList) (lawful : Respects hash)
  (hw : Represents hash' policy' w w.toList) (lawful' : Respects hash')

include hs hw lawful lawful'

omit lawful lawful' hw in
theorem without_apart (w : BucketSet π κ) : Apart (s.without w) :=
  hs.apart.sublist List.filter_sublist

theorem any_without (x : κ) :
    (s.without w).any (· == x) = (s.contains x && !w.contains x) := by
  have shared (a : κ) (equal : (a == x) = true) : (!w.contains a) = !w.contains x := by
    rw [hw.contains_congr lawful' equal]
  rw [without, any_filter shared, ← hs.contains_eq lawful]

omit lawful in
theorem withouts_apart : Apart (s.without w ++ w.without s) := by
  refine List.pairwise_append.2 ⟨hs.without_apart w, hw.without_apart s, fun a ha b hb => ?_⟩
  -- An element of one side that equals one of the other would be in both operands.
  refine Bool.eq_false_iff.2 fun equal => ?_
  have outside := (List.mem_filter.1 ha).2
  rw [hw.contains_congr lawful' equal, hw.contains_of_mem lawful' (List.mem_filter.1 hb).1] at outside
  contradiction

variable [LoadPolicy π]

theorem union : Composed hash policy (fun x => s.contains x || w.contains x)
    (fun a => a ∈ w.toList ∨ a ∈ s.toList ∧ w.contains a = false) (s.union w).value := by
  have made := hs.insertAll lawful hw.apart
  simp only [← hw.contains_eq lawful'] at made
  refine made.composed lawful (fun x => ?_) fun a => by simp
  rw [List.any_append, ← hw.contains_eq lawful', ← without, hs.any_without lawful hw lawful']
  cases w.contains x <;> simp

theorem intersection : Composed hash policy (fun x => s.contains x && w.contains x)
    (fun a => a ∈ s.toList ∧ w.contains a = true) (s.intersection w).value := by
  have made := hs.rebuild lawful (hs.apart.sublist (List.filter_sublist (p := w.contains)))
  refine made.composed lawful (fun x => ?_) fun a => by simp
  rw [any_filter fun a => hw.contains_congr lawful', ← hs.contains_eq lawful]

theorem difference : Composed hash policy (fun x => s.contains x && !w.contains x)
    (fun a => a ∈ s.toList ∧ w.contains a = false) (s.difference w).value := by
  have made := hs.rebuild lawful (hs.without_apart w)
  exact made.composed lawful (hs.any_without lawful hw lawful') fun a => by simp [without]

theorem symmetricDifference : Composed hash policy (fun x => s.contains x ^^ w.contains x)
    (fun a => a ∈ s.toList ∧ w.contains a = false ∨ a ∈ w.toList ∧ s.contains a = false)
    (s.symmetricDifference w).value := by
  have made := hs.rebuild lawful (hs.withouts_apart hw lawful')
  refine made.composed lawful (fun x => ?_) fun a => by simp [without]
  rw [List.any_append, hs.any_without lawful hw lawful', hw.any_without lawful' hs lawful]
  cases s.contains x <;> cases w.contains x <;> rfl

end Represents

/-- The operations on two sets, whatever their histories. The results have the settings
of the first operand; of two equal elements a union stores the one of the second operand
and an intersection the one of the first. -/
theorem reachable_algebra [EquivBEq κ] [LoadPolicy π] (lawful : Respects hash)
    (lawful' : Respects hash') (hs : s.Reachable hash policy) (hw : w.Reachable hash' policy') :
    Composed hash policy (fun x => s.contains x || w.contains x)
      (fun a => a ∈ w.toList ∨ a ∈ s.toList ∧ w.contains a = false) (s.union w).value ∧
    Composed hash policy (fun x => s.contains x && w.contains x)
      (fun a => a ∈ s.toList ∧ w.contains a = true) (s.intersection w).value ∧
    Composed hash policy (fun x => s.contains x && !w.contains x)
      (fun a => a ∈ s.toList ∧ w.contains a = false) (s.difference w).value ∧
    Composed hash policy (fun x => s.contains x ^^ w.contains x)
      (fun a => a ∈ s.toList ∧ w.contains a = false ∨ a ∈ w.toList ∧ s.contains a = false)
      (s.symmetricDifference w).value := by
  have first := hs.represents_toList lawful
  have second := hw.represents_toList lawful'
  exact ⟨first.union lawful second lawful', first.intersection lawful second lawful',
    first.difference lawful second lawful', first.symmetricDifference lawful second lawful'⟩

theorem reachable_algebra_caseless :
    Respects (crc32Of : Caseless → UInt64) ∧ Respects (fun _ : Caseless => 0) ∧
      let s := (ofList crc32Of LoadFactors.default [Caseless.mk "Ab", ⟨"c"⟩]).value
      let w := (ofList (fun _ => 0) (LoadFactors.mk 4 1) [Caseless.mk "C", ⟨"d"⟩]).value
      s.Reachable crc32Of .default ∧ w.Reachable (fun _ => 0) ⟨4, 1⟩ ∧
        ⟨"C"⟩ ∈ (s.union w).value.toList ∧ ⟨"c"⟩ ∈ (s.intersection w).value.toList ∧
        (s.difference w).value.contains ⟨"C"⟩ = false ∧
        ⟨"d"⟩ ∈ (s.symmetricDifference w).value.toList := by
  refine ⟨crc32Of_respects, fun _ _ _ => rfl, ?_⟩
  intro s w
  have apart (a b : Caseless)
      (different : ¬a.spelling.toList.map Char.toLower = b.spelling.toList.map Char.toLower) :
      Apart [a, b] := by
    have unequal : (a == b) = false :=
      Bool.eq_false_iff.2 fun equal => different (Caseless.beq_iff_letters.1 equal)
    simpa [Apart] using unequal
  have first : Represents crc32Of .default s [⟨"Ab"⟩, ⟨"c"⟩] :=
    ofList_represents crc32Of_respects LoadFactors.default (apart ⟨"Ab"⟩ ⟨"c"⟩ (by simp))
  have second : Represents (fun _ => 0) ⟨4, 1⟩ w [⟨"C"⟩, ⟨"d"⟩] :=
    ofList_represents (fun _ _ _ => rfl) (LoadFactors.mk 4 1) (apart ⟨"C"⟩ ⟨"d"⟩ (by simp))
  have same : ((⟨"C"⟩ : Caseless) == ⟨"c"⟩) = true := Caseless.beq_iff_letters.2 (by simp)
  have both : w.contains ⟨"c"⟩ = true := by
    rw [second.contains_eq fun _ _ _ => rfl]
    simp [same]
  have only : s.contains ⟨"d"⟩ = false := by
    rw [first.contains_eq crc32Of_respects]
    simp [Bool.eq_false_iff, Caseless.beq_iff_letters]
  have inFirst : ⟨"c"⟩ ∈ s.toList := first.elements.mem_iff.2 (by simp)
  have inSecond : ⟨"C"⟩ ∈ w.toList ∧ ⟨"d"⟩ ∈ w.toList := by simp [second.elements.mem_iff]
  have hs : s.Reachable crc32Of .default := .ofList _
  have hw : w.Reachable (fun _ => 0) ⟨4, 1⟩ := .ofList _
  obtain ⟨union, intersection, difference, symmetric⟩ :=
    reachable_algebra crc32Of_respects (fun _ _ _ => rfl) hs hw
  refine ⟨hs, hw, (union.stored _).2 (.inl inSecond.1), (intersection.stored _).2 ⟨inFirst, both⟩,
    ?_, (symmetric.stored _).2 (.inr ⟨inSecond.2, only⟩)⟩
  rw [difference.contains, second.contains_congr (fun _ _ _ => rfl) same, both]
  simp

end PersistentCollections.BucketSet
