import Mathlib.Data.List.Induction
import PersistentCollections.Proofs.MapShape

/-! Distributions: each bucket gets the items whose hash says so, in the order in which
they stand in one list. Putting an item into its bucket is putting it into that list, so
spreading items over buckets distributes the list that they make when they are put into
one bucket. -/

namespace PersistentCollections

open Association (Distinct)

variable {κ ν : Type}

def share (hash : κ → UInt64) (count : Nat) (items : List (κ × ν)) (i : Nat) : Bucket κ ν :=
  items.filter fun item => (hash item.1).toNat % count == i

/-- Items over so many buckets, each bucket in the order of the items. -/
def distribute (hash : κ → UInt64) (count : Nat) (items : List (κ × ν)) : List (Bucket κ ν) :=
  (List.range count).map (share hash count items)

@[simp] theorem length_distribute (hash : κ → UInt64) (count : Nat) (items : List (κ × ν)) :
    (distribute hash count items).length = count := by
  simp [distribute]

theorem distribute_nil (hash : κ → UInt64) (count : Nat) :
    distribute hash count ([] : List (κ × ν)) = List.replicate count [] := by
  apply List.eq_replicate_iff.2
  simp [distribute, share]

theorem getElem?_distribute (hash : κ → UInt64) (items : List (κ × ν)) {count i : Nat}
    (inside : i < count) : (distribute hash count items)[i]? = some (share hash count items i) := by
  simp [distribute, List.getElem?_range inside]

variable [BEq κ]

namespace Bucket

theorem put_of_new {item : κ × ν} {b : Bucket κ ν} (new : contains b item.1 = false) :
    put item b = b ++ [item] := by
  induction b with
  | nil => rfl
  | cons old rest ih =>
    rw [contains, List.any_cons, Bool.or_eq_false_iff] at new
    simp [put, new.1, ih new.2]

theorem put_of_known {item : κ × ν} {b : Bucket κ ν} (known : contains b item.1 = true) :
    ∃ front old back, b = front ++ old :: back ∧ (old.1 == item.1) = true ∧
      put item b = front ++ item :: back := by
  induction b with
  | nil => simp [contains] at known
  | cons first rest ih =>
    cases equal : first.1 == item.1 with
    | true => exact ⟨[], first, rest, rfl, equal, by simp [put, equal]⟩
    | false =>
      rw [contains, List.any_cons, equal, Bool.false_or] at known
      obtain ⟨front, old, back, rfl, same, placed⟩ := ih known
      exact ⟨first :: front, old, back, rfl, same, by simp [put, equal, placed]⟩

theorem distinct_concat {b : Bucket κ ν} {item : κ × ν} (h : Distinct b)
    (new : contains b item.1 = false) : Distinct (b ++ [item]) := by
  refine List.pairwise_append.2 ⟨h, List.pairwise_singleton _ _, fun old member other single => ?_⟩
  rw [List.mem_singleton.1 single]
  exact Bool.eq_false_iff.2 (List.any_eq_false.1 new old member)

/-- The items that are left when all these were put into one bucket, one after the other. -/
def gather (items : List (κ × ν)) : Bucket κ ν := items.foldl (fun b item => put item b) []

theorem gather_concat (items : List (κ × ν)) (item : κ × ν) :
    gather (items ++ [item]) = put item (gather items) := by
  simp [gather]

theorem gather_of_distinct {items : List (κ × ν)} (h : Distinct items) : gather items = items := by
  induction items using List.reverseRecOn with
  | nil => rfl
  | append_singleton items item ih =>
    obtain ⟨front, _, apart⟩ := List.pairwise_append.1 h
    have new : contains items item.1 = false :=
      List.any_eq_false.2 fun old member => by simp [apart old member item]
    rw [gather_concat, ih front, put_of_new new]

variable [EquivBEq κ]

theorem distinct_put {item : κ × ν} {b : Bucket κ ν} (h : Distinct b) : Distinct (put item b) :=
  (Association.distinct_insert h).perm (h.put_perm item.1 item.2).symm

theorem gather_distinct (items : List (κ × ν)) : Distinct (gather items) := by
  induction items using List.reverseRecOn with
  | nil => exact .nil
  | append_singleton items item ih =>
    rw [gather_concat]
    exact distinct_put ih

theorem gather_perm (items : List (κ × ν)) :
    (gather items).Perm (Association.insertAll [] items) := by
  induction items using List.reverseRecOn with
  | nil => exact .nil
  | append_singleton items item ih =>
    rw [gather_concat, Association.insertAll, List.foldl_append]
    exact ((gather_distinct items).put_perm item.1 item.2).trans (Association.insert_perm ih)

theorem put_eq_map {item : κ × ν} {b : Bucket κ ν} (h : Distinct b)
    (known : contains b item.1 = true) :
    put item b = b.map fun old => if old.1 == item.1 then item else old := by
  induction b with
  | nil => simp [contains] at known
  | cons first rest ih =>
    cases equal : first.1 == item.1 with
    | true =>
      have others : rest.map (fun old => if old.1 == item.1 then item else old) = rest.map id :=
        List.map_congr_left fun old member => by simp [h.absent equal old member]
      simp [put, equal, others]
    | false =>
      rw [contains, List.any_cons, equal, Bool.false_or] at known
      simp [put, equal, ih (List.pairwise_cons.1 h).2 known]

theorem erase_of_known {b : Bucket κ ν} {k : κ} (h : Distinct b) (known : contains b k = true) :
    ∃ front old back, b = front ++ old :: back ∧ (old.1 == k) = true ∧
      erase b k = front ++ back := by
  induction b with
  | nil => simp [contains] at known
  | cons first rest ih =>
    cases equal : first.1 == k with
    | true => exact ⟨[], first, rest, rfl, equal, h.erase_cons_self equal⟩
    | false =>
      rw [contains, List.any_cons, equal, Bool.false_or] at known
      obtain ⟨front, old, back, rfl, same, left⟩ := ih (List.pairwise_cons.1 h).2 known
      refine ⟨first :: front, old, back, rfl, same, ?_⟩
      rw [List.cons_append, ← left]
      exact Association.erase_cons_of_ne equal

end Bucket

/-! ### Which items stay -/

/-- For each key the first item that has it. -/
def earliest (items : List (κ × ν)) : List (κ × ν) := items.eraseDupsBy fun a b => a.1 == b.1

/-- For each key the last item that has it, in the place of the first. -/
def latest (items : List (κ × ν)) : List (κ × ν) :=
  (earliest items).map fun first => (Association.find? items.reverse first.1).getD first

theorem eraseDupsBy_concat {α : Type} (same : α → α → Bool) (items : List α) (item : α) :
    (items ++ [item]).eraseDupsBy same =
      if (items.eraseDupsBy same).any (same item) then items.eraseDupsBy same
      else items.eraseDupsBy same ++ [item] := by
  -- The loop keeps what it has taken in reverse, also when it comes to the last item.
  have general (taken : List α) : List.eraseDupsBy.loop same (items ++ [item]) taken =
      if (List.eraseDupsBy.loop same items taken).any (same item)
      then List.eraseDupsBy.loop same items taken
      else List.eraseDupsBy.loop same items taken ++ [item] := by
    induction items generalizing taken with
    | nil =>
      cases known : taken.any (same item) <;> simp [List.eraseDupsBy.loop, known]
    | cons a rest ih =>
      rw [List.cons_append]
      cases known : taken.any (same a) <;> simp only [List.eraseDupsBy.loop, known, ih]
  exact general []

section

variable [EquivBEq κ] (items : List (κ × ν))

theorem key_of_latest (first : κ × ν) (k : κ) :
    (((Association.find? items first.1).getD first).1 == k) = (first.1 == k) := by
  cases found : Association.find? items first.1 with
  | none => rfl
  | some last =>
    have matching := List.find?_some found
    exact BEq.congr_left matching

theorem contains_latest (k : κ) :
    Bucket.contains (latest items) k = (earliest items).any fun first => k == first.1 := by
  simp only [Bucket.contains, latest, List.any_map]
  apply congrArg
  funext first
  exact (key_of_latest items.reverse first k).trans BEq.comm

theorem latest_concat (item : κ × ν) :
    latest (items ++ [item]) =
      (if Bucket.contains (latest items) item.1 then earliest items
        else earliest items ++ [item]).map fun first =>
          if first.1 == item.1 then item
          else (Association.find? items.reverse first.1).getD first := by
  have place (first : κ × ν) : (Association.find? (items ++ [item]).reverse first.1).getD first =
      if first.1 == item.1 then item
      else (Association.find? items.reverse first.1).getD first := by
    rw [List.reverse_concat, Association.find?, List.find?_cons, BEq.comm]
    cases first.1 == item.1 <;> rfl
  rw [latest, earliest, eraseDupsBy_concat, contains_latest]
  simp only [place]
  rfl

theorem Bucket.gather_eq_latest : gather items = latest items := by
  induction items using List.reverseRecOn with
  | nil => rfl
  | append_singleton items item ih =>
    have distinct := gather_distinct items
    rw [ih] at distinct
    rw [gather_concat, ih, latest_concat]
    cases known : contains (latest items) item.1 with
    | true =>
      rw [put_eq_map distinct known, latest, List.map_map]
      apply List.map_congr_left
      intro first _
      simp [key_of_latest]
    | false =>
      have others : ∀ first ∈ earliest items, (first.1 == item.1) = false := by
        intro first member
        rw [contains_latest, List.any_eq_false] at known
        rw [BEq.comm]
        simpa using known first member
      have kept : latest items = (earliest items).map fun first =>
          if first.1 == item.1 then item
          else (Association.find? items.reverse first.1).getD first := by
        apply List.map_congr_left
        intro first member
        simp [others first member]
      rw [put_of_new known]
      simp [kept]

end

/-! ### Putting items into their buckets -/

variable {hash : κ → UInt64} {count : Nat}

theorem share_put (lawful : Respects hash) (item : κ × ν) (items : List (κ × ν)) (i : Nat) :
    share hash count (Bucket.put item items) i =
      if (hash item.1).toNat % count = i then Bucket.put item (share hash count items i)
      else share hash count items i := by
  induction items with
  | nil => by_cases own : (hash item.1).toNat % count = i <;> simp [share, Bucket.put, own]
  | cons old rest ih =>
    cases equal : old.1 == item.1 with
    | true =>
      -- The old item is in the same bucket, where it stands in front of what is kept of the rest.
      have same := lawful old.1 item.1 equal
      by_cases own : (hash item.1).toNat % count = i <;>
        simp [share, Bucket.put, equal, same, own]
    | false =>
      by_cases own : (hash item.1).toNat % count = i <;>
        by_cases old_own : (hash old.1).toNat % count = i <;>
          simp_all [share, Bucket.put]

theorem distribute_put (lawful : Respects hash) (item : κ × ν) (items : List (κ × ν)) :
    distribute hash count (Bucket.put item items) =
      (distribute hash count items).modify ((hash item.1).toNat % count) (Bucket.put item) := by
  ext1 i
  by_cases inside : i < count
  · rw [List.getElem?_modify, getElem?_distribute hash _ inside, getElem?_distribute hash _ inside,
      share_put lawful]
    rfl
  · rw [List.getElem?_eq_none (by simpa using inside), List.getElem?_eq_none (by simpa using inside)]

theorem Spread.addAll_distributes (lawful : Respects hash) {s : Spread κ ν}
    {kept : List (κ × ν)} (start : s.buckets.toList = distribute hash count kept)
    (items : List (κ × ν)) :
    (s.addAll hash items).buckets.toList =
      distribute hash count (items.foldl (fun b item => Bucket.put item b) kept) := by
  induction items generalizing s kept with
  | nil => exact start
  | cons item rest ih =>
    apply ih
    have size : s.buckets.size = count := by
      rw [← Array.length_toList, start, length_distribute]
    rw [Spread.add, Array.toList_modify, size, start, distribute_put lawful]

theorem BucketMap.table_spread_eq [LoadPolicy π] (lawful : Respects hash) (policy : π) (count : Nat)
    (items : List (κ × ν)) :
    (spread hash policy count items).value.table =
      distribute hash (bucketCount policy count) (Bucket.gather items) := by
  rw [table_spread]
  apply Spread.addAll_distributes lawful
  rw [distribute_nil]
  exact Spread.toList_empty _

end PersistentCollections
