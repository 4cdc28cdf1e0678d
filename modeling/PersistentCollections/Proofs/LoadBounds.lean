import PersistentCollections.Proofs.LoadRuns
import PersistentCollections.Proofs.SetAlgebra

/-! Load bounds. A policy is consistent if the number of buckets that it gives fits the
items, and if fewer items never make a map grow, nor more items make it shrink. Then each
update keeps both bounds, although it looks at one of them only, and an erasure brings them
about even where there were too few items before. -/

namespace PersistentCollections

variable {π : Type} [LoadPolicy π] {p : π} {l : Load}

namespace Load

def Roomy (p : π) (l : Load) : Prop := needsGrow p l.items l.buckets = false

/-- Neither too many items for the buckets nor too few. -/
structure Balanced (p : π) (l : Load) : Prop where
  grow : needsGrow p l.items l.buckets = false
  shrink : needsShrink p l.items l.buckets = false

theorem Balanced.roomy (h : Balanced p l) : Roomy p l := h.grow

/-- What a policy must be like for its bounds to be kept. -/
structure Consistent (p : π) : Prop where
  grow_mono : ∀ {fewer more buckets : Nat}, fewer ≤ more →
    needsGrow p more buckets = false → needsGrow p fewer buckets = false
  shrink_mono : ∀ {fewer more buckets : Nat}, fewer ≤ more →
    needsShrink p fewer buckets = false → needsShrink p more buckets = false
  single : Balanced p ⟨0, 1⟩
  sized : ∀ items, Balanced p ⟨items, bucketCount p items⟩

/-- What every update keeps, whether its key is known or not. -/
structure Kept (p : π) (Q : Load → Prop) : Prop where
  insert : ∀ l known, Q l → Q (insert p known l).value
  erase : ∀ l known, Q l → Q (erase p known l).value

namespace Consistent

variable (c : Consistent p) {known : Bool}

include c

theorem spread_roomy {items count : Nat} (most : items ≤ count) :
    Roomy p ⟨items, bucketCount p count⟩ :=
  c.grow_mono most (c.sized count).grow

theorem insert_roomy (h : Roomy p l) : Roomy p (insert p known l).value := by
  cases known with
  | true => simpa using h
  | false =>
    cases grows : needsGrow p (l.items + 1) l.buckets with
    | true => simpa [insert, grows] using (c.sized (l.items + 1)).roomy
    | false =>
      have roomy : Roomy p ⟨l.items + 1, l.buckets⟩ := grows
      simpa [insert, grows] using roomy

theorem insert_balanced (h : Balanced p l) : Balanced p (insert p known l).value := by
  cases known with
  | true => simpa using h
  | false =>
    cases grows : needsGrow p (l.items + 1) l.buckets with
    | true => simpa [insert, grows] using c.sized (l.items + 1)
    | false =>
      have shrink := c.shrink_mono (Nat.le_succ l.items) h.shrink
      simpa [insert, grows] using Balanced.mk grows shrink

/-- After an erasure both bounds hold, also where there were too few items before. -/
theorem erase_known_balanced (h : Roomy p l) :
    Balanced p (erase p true l).value := by
  cases few : needsShrink p (l.items - 1) l.buckets with
  | true => simpa [erase, few] using c.sized (l.items - 1)
  | false =>
    have grow := c.grow_mono (Nat.sub_le l.items 1) h
    simpa [erase, few] using Balanced.mk grow few

theorem erase_balanced (h : Balanced p l) : Balanced p (erase p known l).value := by
  cases known with
  | true => exact c.erase_known_balanced h.grow
  | false => simpa using h

theorem erase_roomy (h : Roomy p l) : Roomy p (erase p known l).value := by
  cases known with
  | true => exact (c.erase_known_balanced h).roomy
  | false => simpa using h

theorem kept_roomy : Kept p (Roomy p) :=
  ⟨fun _ _ => c.insert_roomy, fun _ _ => c.erase_roomy⟩

theorem kept_balanced : Kept p (Balanced p) :=
  ⟨fun _ _ => c.insert_balanced, fun _ _ => c.erase_balanced⟩

end Consistent

end Load

namespace BucketMap

variable {κ ν : Type} [BEq κ] {hash : κ → UInt64} {m : BucketMap π κ ν} {items : List (κ × ν)}

/-- The maps with this hash and this policy that were never made at once from items with
a key twice. -/
inductive Fitted (hash : κ → UInt64) (policy : π) : BucketMap π κ ν → Prop
  | empty : Fitted hash policy (empty hash policy)
  | ofList {items : List (κ × ν)} : Association.Distinct items →
    Fitted hash policy (ofList hash policy items).value
  | insert {m : BucketMap π κ ν} (k : κ) (v : ν) : Fitted hash policy m →
    Fitted hash policy (m.insert k v).value
  | erase {m : BucketMap π κ ν} (k : κ) : Fitted hash policy m →
    Fitted hash policy (m.erase k).value
  | insertAll {m : BucketMap π κ ν} (items : List (κ × ν)) : Fitted hash policy m →
    Fitted hash policy (m.insertAll items).value

variable [EquivBEq κ]

theorem load_insert (h : m.WellFormed) (lawful : Respects m.hash) (k : κ) (v : ν) :
    (m.insert k v).value.load = (Load.insert m.policy (m.contains k) m.load).value :=
  congrArg Logged.value (h.insert_load lawful k v)

theorem load_erase (h : m.WellFormed) (lawful : Respects m.hash) (k : κ) :
    (m.erase k).value.load = (Load.erase m.policy (m.contains k) m.load).value :=
  congrArg Logged.value (h.erase_load lawful k)

theorem load_ofList (lawful : Respects hash) (policy : π) (items : List (κ × ν)) :
    (ofList hash policy items).value.load =
      ⟨(Association.insertAll [] items).length, bucketCount policy items.length⟩ := by
  rw [← spread_length lawful policy items.length]
  exact congrArg Logged.value (spread_load hash policy items.length items)

theorem WellFormed.length_buckets_insert (h : m.WellFormed) (lawful : Respects m.hash) {k : κ}
    (known : m.contains k = true) (v : ν) : (m.insert k v).value.buckets.length = m.buckets.length := by
  have load := load_insert h lawful k v
  rw [known, Load.insert_known] at load
  exact congrArg Load.buckets load

variable {policy : π} {Q : Load → Prop}

structure Loaded (hash : κ → UInt64) (policy : π) (Q : Load → Prop) (m : BucketMap π κ ν) :
    Prop where
  represents : ∃ items, Represents hash policy m items
  load : Q m.load

namespace Loaded

variable (kept : Load.Kept policy Q) (lawful : Respects hash)

include kept lawful

theorem insert (h : Loaded hash policy Q m) (k : κ) (v : ν) :
    Loaded hash policy Q (m.insert k v).value := by
  obtain ⟨⟨items, form⟩, load⟩ := h
  refine ⟨⟨_, form.insert lawful k v⟩, ?_⟩
  obtain ⟨wellFormed, rfl, rfl, _⟩ := form
  rw [load_insert wellFormed lawful]
  exact kept.insert _ _ load

theorem erase (h : Loaded hash policy Q m) (k : κ) : Loaded hash policy Q (m.erase k).value := by
  obtain ⟨⟨items, form⟩, load⟩ := h
  refine ⟨⟨_, form.erase lawful k⟩, ?_⟩
  obtain ⟨wellFormed, rfl, rfl, _⟩ := form
  rw [load_erase wellFormed lawful]
  exact kept.erase _ _ load

theorem insertAll (h : Loaded hash policy Q m) (items : List (κ × ν)) :
    Loaded hash policy Q (m.insertAll items).value := by
  rw [BucketMap.insertAll, Logged.fold_value]
  induction items generalizing m with
  | nil => exact h
  | cons item rest ih => exact ih (h.insert kept lawful item.1 item.2)

end Loaded

omit [EquivBEq κ] in
theorem empty_balanced (c : Load.Consistent policy) (hash : κ → UInt64) :
    Loaded hash policy (Load.Balanced policy) (empty hash policy : BucketMap π κ ν) :=
  ⟨⟨_, empty_represents hash policy⟩, empty_load hash policy ▸ c.single⟩

variable (c : Load.Consistent policy) (lawful : Respects hash)

include c lawful

theorem ofList_balanced (distinct : Association.Distinct items) :
    Loaded hash policy (Load.Balanced policy) (ofList hash policy items).value := by
  refine ⟨⟨_, ofList_represents lawful policy items⟩, ?_⟩
  rw [load_ofList lawful, distinct.insertAll_nil.length_eq]
  exact c.sized items.length

theorem ofList_roomy (items : List (κ × ν)) :
    Loaded hash policy (Load.Roomy policy)
      (ofList hash policy items).value := by
  refine ⟨⟨_, ofList_represents lawful policy items⟩, ?_⟩
  rw [load_ofList lawful]
  apply c.spread_roomy
  simpa using Association.length_insertAll_le [] items

theorem Fitted.balanced (h : Fitted hash policy m) :
    Loaded hash policy (Load.Balanced policy) m := by
  induction h with
  | empty => exact empty_balanced c hash
  | ofList distinct => exact ofList_balanced c lawful distinct
  | insert k v _ ih => exact ih.insert c.kept_balanced lawful k v
  | erase k _ ih => exact ih.erase c.kept_balanced lawful k
  | insertAll items _ ih => exact ih.insertAll c.kept_balanced lawful items

theorem Reachable.roomy (h : m.Reachable hash policy) :
    Loaded hash policy (Load.Roomy policy) m := by
  induction h with
  | empty =>
    obtain ⟨form, balanced⟩ := empty_balanced (κ := κ) (ν := ν) c hash
    exact ⟨form, balanced.roomy⟩
  | ofList items => exact ofList_roomy c lawful items
  | fromJson read =>
    obtain ⟨items, rfl⟩ := Json.Decoder.run_record read
    exact ofList_roomy c lawful items
  | insert k v _ ih => exact ih.insert c.kept_roomy lawful k v
  | erase k _ ih => exact ih.erase c.kept_roomy lawful k
  | insertAll items _ ih => exact ih.insertAll c.kept_roomy lawful items

end BucketMap

namespace BucketSet

variable {κ : Type} [BEq κ] [EquivBEq κ] {hash : κ → UInt64} {policy : π} {s : BucketSet π κ}
  (c : Load.Consistent policy) (lawful : Respects hash)

include c lawful

theorem rebuild_balanced (hash_eq : s.map.hash = hash) (policy_eq : s.map.policy = policy)
    {elements : List κ} (apart : Apart elements) :
    Load.Balanced policy (s.rebuild elements).value.map.load := by
  subst hash_eq policy_eq
  exact (BucketMap.ofList_balanced c lawful (distinct_items.2 apart)).load

theorem Reachable.roomy (h : s.Reachable hash policy) :
    BucketMap.Loaded hash policy (Load.Roomy policy) s.map := by
  have rebuilt {s : BucketSet π κ} (elements : List κ)
      (old : BucketMap.Loaded hash policy (Load.Roomy policy) s.map) :
      BucketMap.Loaded hash policy (Load.Roomy policy)
        (s.rebuild elements).value.map := by
    obtain ⟨⟨_, _, rfl, rfl, _⟩, _⟩ := old
    exact BucketMap.ofList_roomy c lawful _
  induction h with
  | empty => exact BucketMap.Reachable.roomy c lawful .empty
  | ofList items => exact BucketMap.ofList_roomy c lawful _
  | fromJson read =>
    obtain ⟨items, rfl⟩ := Json.Decoder.run_record read
    exact BucketMap.ofList_roomy c lawful _
  | insert a _ ih => exact ih.insert c.kept_roomy lawful a ()
  | erase a _ ih => exact ih.erase c.kept_roomy lawful a
  | insertAll items _ ih =>
    rw [insertAll_map]
    exact ih.insertAll c.kept_roomy lawful _
  | union w _ ih =>
    rw [BucketSet.union, insertAll_map]
    exact ih.insertAll c.kept_roomy lawful _
  | intersection w _ ih => exact rebuilt _ ih
  | difference w _ ih => exact rebuilt _ ih
  | symmetricDifference w _ ih => exact rebuilt _ ih

end BucketSet

end PersistentCollections
