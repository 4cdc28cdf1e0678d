import PersistentCollections.Proofs.Association

/-! Tables of buckets. Under any hash an item is in the bucket that its hash says, where
its key does not come twice, and the number of items can be kept by looking at one bucket.
If equal keys have equal hashes, the items with a key that equals `k` are all in the bucket
of `k`: what is done to that bucket alone is done to the whole table. This holds of both
tables that a map is kept in, the one that items are spread over and the one that shares
its buckets. -/

namespace PersistentCollections

open Association (Distinct)

variable {κ ν : Type} [BEq κ] {hash : κ → UInt64} {t : List (Bucket κ ν)} {k : κ} {v : ν}

/-- Equal keys have equal hashes. -/
def Respects (hash : κ → UInt64) : Prop := ∀ a b, (a == b) = true → hash a = hash b

def itemCount (t : List (Bucket κ ν)) : Nat := t.foldr (fun b n => b.length + n) 0

omit [BEq κ] in
theorem length_flatten_eq_itemCount (t : List (Bucket κ ν)) : t.flatten.length = itemCount t := by
  induction t with
  | nil => rfl
  | cons b rest ih => rw [List.flatten_cons, List.length_append, ih]; rfl

omit [BEq κ] in
theorem itemCount_modify {i : Nat} {b : Bucket κ ν} (found : t[i]? = some b)
    (f : Bucket κ ν → Bucket κ ν) :
    itemCount (t.modify i f) + b.length = itemCount t + (f b).length := by
  induction t generalizing i with
  | nil => simp at found
  | cons first rest ih =>
    cases i with
    | zero =>
      obtain rfl : first = b := by simpa using found
      simp only [itemCount, List.modify_zero_cons, List.foldr_cons]
      omega
    | succ i =>
      have deeper := ih (i := i) (by simpa using found)
      simp only [itemCount, List.modify_succ_cons, List.foldr_cons] at deeper ⊢
      omega

theorem length_put (item : κ × ν) (b : Bucket κ ν) :
    (Bucket.put item b).length = if Bucket.contains b item.1 then b.length else b.length + 1 := by
  induction b with
  | nil => rfl
  | cons old rest ih =>
    cases same : old.1 == item.1 with
    | true => simp [Bucket.put, Bucket.contains, same]
    | false =>
      have put : Bucket.put item (old :: rest) = old :: Bucket.put item rest := by
        simp [Bucket.put, same]
      have known : Bucket.contains (old :: rest) item.1 = Bucket.contains rest item.1 := by
        simp [Bucket.contains, same]
      rw [put, known, List.length_cons, List.length_cons, ih]
      split <;> rfl

theorem itemCount_put {i : Nat} {b : Bucket κ ν} (found : t[i]? = some b) (item : κ × ν) :
    itemCount (t.modify i (Bucket.put item)) =
      if Bucket.contains b item.1 then itemCount t else itemCount t + 1 := by
  have all := itemCount_modify found (Bucket.put item)
  rw [length_put] at all
  cases known : Bucket.contains b item.1 <;>
  · simp only [known, if_true, if_false, Bool.false_eq_true] at all ⊢
    omega

/-! ### Any hash -/

/-- Every item is in the bucket that its hash says, and no bucket has a key twice. Of two
buckets both may have it, if the hash tells equal keys apart. -/
structure Housed (hash : κ → UInt64) (t : List (Bucket κ ν)) : Prop where
  pos : 0 < t.length
  place : ∀ i b, t[i]? = some b → ∀ item ∈ b, (hash item.1).toNat % t.length = i
  distinct : ∀ b ∈ t, Distinct b

theorem replicate_housed (hash : κ → UInt64) {count : Nat} (pos : 0 < count) :
    Housed hash (List.replicate count ([] : Bucket κ ν)) := by
  refine ⟨by simpa using pos, fun i b found item member => ?_, fun b member => ?_⟩
  · rw [List.eq_of_mem_replicate (List.mem_of_getElem? found)] at member
    simp at member
  · rw [List.eq_of_mem_replicate member]
    exact .nil

namespace Housed

theorem of_modify {i : Nat} {f : Bucket κ ν → Bucket κ ν} (h : Housed hash t)
    (own : ∀ b, t[i]? = some b → ∀ item ∈ f b, (hash item.1).toNat % t.length = i)
    (distinct : ∀ b ∈ t, Distinct (f b)) : Housed hash (t.modify i f) := by
  refine ⟨by simpa using h.pos, fun j b found item member => ?_, fun b member => ?_⟩
  · rw [List.length_modify]
    rw [List.getElem?_modify] at found
    obtain ⟨old, oldFound, rfl⟩ := Option.map_eq_some_iff.1 found
    by_cases same : i = j
    · subst same
      exact own old oldFound item (by simpa using member)
    · exact h.place j old oldFound item (by simpa [same] using member)
  · obtain ⟨j, found⟩ := List.mem_iff_getElem?.1 member
    rw [List.getElem?_modify] at found
    obtain ⟨old, oldFound, rfl⟩ := Option.map_eq_some_iff.1 found
    have inTable := List.mem_of_getElem? oldFound
    by_cases same : i = j
    · simpa [same] using distinct old inTable
    · simpa [same] using h.distinct old inTable

theorem erase (h : Housed hash t) (k : κ) :
    Housed hash (t.modify ((hash k).toNat % t.length) (Bucket.erase · k)) := by
  refine h.of_modify (fun b found item member => ?_) fun b member => ?_
  · exact h.place _ b found item (List.mem_filter.1 member).1
  · exact Association.distinct_erase (h.distinct b member)

variable [EquivBEq κ]

theorem put (h : Housed hash t) (k : κ) (v : ν) :
    Housed hash (t.modify ((hash k).toNat % t.length) (Bucket.put (k, v))) := by
  have placed {b : Bucket κ ν} (member : b ∈ t) := (h.distinct b member).put_perm k v
  refine h.of_modify (fun b found item member => ?_) fun b member => ?_
  · rcases List.mem_cons.1 ((placed (List.mem_of_getElem? found)).mem_iff.1 member) with rfl | old
    · rfl
    · exact h.place _ b found item (Association.mem_erase.1 old).1
  · exact (Association.distinct_insert (h.distinct b member)).perm (placed member).symm

end Housed

/-! ### Hashes that respect equality -/

/-- Every item is in the bucket that its hash says, and no key comes twice. -/
structure Placed (hash : κ → UInt64) (t : List (Bucket κ ν)) : Prop where
  pos : 0 < t.length
  place : ∀ i b, t[i]? = some b → ∀ item ∈ b, (hash item.1).toNat % t.length = i
  distinct : Distinct t.flatten

theorem Housed.placed (h : Housed hash t) (distinct : Distinct t.flatten) : Placed hash t :=
  ⟨h.pos, h.place, distinct⟩

omit [BEq κ] in
theorem flatten_modify_perm {i : Nat} {f g : Bucket κ ν → Bucket κ ν} {item : κ × ν}
    (inside : i < t.length) (put : ∀ b ∈ t, (f b).Perm (item :: g b)) :
    (t.modify i f).flatten.Perm (item :: (t.modify i g).flatten) := by
  induction t generalizing i with
  | nil => simp at inside
  | cons b rest ih =>
    cases i with
    | zero =>
      simpa using (put b List.mem_cons_self).append_right rest.flatten
    | succ i =>
      have deeper := ih (i := i) (by simpa using inside) fun c member =>
        put c (List.mem_cons_of_mem b member)
      simpa using (deeper.append_left b).trans List.perm_middle

namespace Placed

theorem bucket_distinct {b : Bucket κ ν} (h : Placed hash t) (member : b ∈ t) : Distinct b :=
  h.distinct.sublist (List.sublist_flatten_of_mem member)

theorem housed (h : Placed hash t) : Housed hash t :=
  ⟨h.pos, h.place, fun _ member => h.bucket_distinct member⟩

theorem mem_flatten_iff {b : Bucket κ ν} {item : κ × ν} (h : Placed hash t) (lawful : Respects hash)
    (found : t[(hash k).toNat % t.length]? = some b) (matching : (item.1 == k) = true) :
    item ∈ t.flatten ↔ item ∈ b := by
  constructor
  · intro member
    obtain ⟨c, inTable, inBucket⟩ := List.mem_flatten.1 member
    obtain ⟨i, place⟩ := List.mem_iff_getElem?.1 inTable
    have own : (hash k).toNat % t.length = i := by
      rw [← lawful item.1 k matching]
      exact h.place i c place item inBucket
    rw [own, place] at found
    exact Option.some.inj found ▸ inBucket
  · exact List.mem_flatten_of_mem (List.mem_of_getElem? found)

theorem erase_flatten (h : Placed hash t) (lawful : Respects hash) (k : κ) :
    (t.modify ((hash k).toNat % t.length) (Bucket.erase · k)).flatten =
      Association.erase t.flatten k := by
  have each : t.modify ((hash k).toNat % t.length) (Bucket.erase · k) =
      t.map (Bucket.erase · k) := by
    ext1 j
    rw [List.getElem?_modify, List.getElem?_map]
    split
    · rfl
    · -- In any other bucket there is nothing to erase.
      rename_i other
      cases found : t[j]? with
      | none => rfl
      | some b =>
        have absent : ∀ item ∈ b, (item.1 == k) = false := by
          intro item member
          refine Bool.eq_false_iff.2 fun matching => other ?_
          rw [← lawful item.1 k matching]
          exact h.place j b found item member
        exact congrArg some (Association.erase_eq_self absent).symm
  rw [each, Association.erase, List.filter_flatten]
  rfl

theorem erase (h : Placed hash t) (lawful : Respects hash) (k : κ) :
    Placed hash (t.modify ((hash k).toNat % t.length) (Bucket.erase · k)) := by
  apply (h.housed.erase k).placed
  rw [h.erase_flatten lawful]
  exact Association.distinct_erase h.distinct

variable [EquivBEq κ]

theorem find?_bucket {b : Bucket κ ν} (h : Placed hash t) (lawful : Respects hash)
    (found : t[(hash k).toNat % t.length]? = some b) :
    Association.find? b k = Association.find? t.flatten k := by
  ext item
  rw [(h.bucket_distinct (List.mem_of_getElem? found)).find?_eq_some_iff,
    h.distinct.find?_eq_some_iff]
  exact and_congr_left fun matching => (h.mem_flatten_iff lawful found matching).symm

theorem put_flatten (h : Placed hash t) (lawful : Respects hash) (k : κ) (v : ν) :
    (t.modify ((hash k).toNat % t.length) (Bucket.put (k, v))).flatten.Perm
      (Association.insert t.flatten k v) := by
  rw [Association.insert, ← h.erase_flatten lawful]
  refine flatten_modify_perm (Nat.mod_lt _ h.pos) fun b member => ?_
  exact (h.bucket_distinct member).put_perm k v

theorem put (h : Placed hash t) (lawful : Respects hash) (k : κ) (v : ν) :
    Placed hash (t.modify ((hash k).toNat % t.length) (Bucket.put (k, v))) :=
  (h.housed.put k v).placed
    ((Association.distinct_insert h.distinct).perm (h.put_flatten lawful k v).symm)

end Placed

theorem replicate_placed (hash : κ → UInt64) {count : Nat} (pos : 0 < count) :
    Placed hash (List.replicate count ([] : Bucket κ ν)) := by
  apply (replicate_housed hash pos).placed
  rw [List.flatten_replicate_nil]
  exact .nil

end PersistentCollections
