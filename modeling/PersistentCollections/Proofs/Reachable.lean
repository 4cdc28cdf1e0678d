import PersistentCollections.Json.Key
import PersistentCollections.Proofs.MapHistory

/-! All ways to make a map or a set. Each of them gives a well-formed map with the hash
and the policy of the one that it was made from. What new maps have, and what the update of
one item keeps, all maps have; that the items are counted right is such a property for any
equality of keys. -/

namespace PersistentCollections

namespace Json.Decoder

variable {α β : Type} {d : Decoder α}

theorem bind_apply (d : Decoder α) (f : α → Decoder β) (s : Progress) :
    (d >>= f) s = match d s with
      | (.ok a, s) => f a s
      | (.error e, s) => (.error e, s) := by
  simp only [bind, ExceptT.bind, ExceptT.mk, StateT.bind]
  rcases d s with ⟨_ | a, s⟩ <;> rfl

theorem run_record {build : α → Logged β} {text : String} {b : β}
    (h : (run (do record (build (← d))) text).value = .ok b) : ∃ a, b = (build a).value := by
  rw [run, bind_apply] at h
  generalize d ⟨text.toList, []⟩ = outcome at h
  obtain ⟨_ | a, s⟩ := outcome
  · cases h
  · refine ⟨a, ?_⟩
    simp only [record] at h
    split at h
    · exact (Except.ok.inj h).symm
    · cases h

end Json.Decoder

namespace BucketMap

variable {π κ ν : Type} [BEq κ] [LoadPolicy π] {hash : κ → UInt64} {policy : π}

/-- The maps with this hash and this policy. -/
inductive Reachable (hash : κ → UInt64) (policy : π) : BucketMap π κ ν → Prop
  | empty : Reachable hash policy (empty hash policy)
  | ofList (items : List (κ × ν)) : Reachable hash policy (ofList hash policy items).value
  | fromJson [JsonKey κ] [JsonValue ν] {text : String} {m : BucketMap π κ ν} :
    (fromJson hash policy text).value = .ok m → Reachable hash policy m
  | insert {m : BucketMap π κ ν} (k : κ) (v : ν) : Reachable hash policy m →
    Reachable hash policy (m.insert k v).value
  | erase {m : BucketMap π κ ν} (k : κ) : Reachable hash policy m →
    Reachable hash policy (m.erase k).value
  | insertAll {m : BucketMap π κ ν} (items : List (κ × ν)) : Reachable hash policy m →
    Reachable hash policy (m.insertAll items).value

variable {m : BucketMap π κ ν}

section

variable {P : BucketMap π κ ν → Prop} (empty : ∀ hash policy, P (.empty hash policy))
  (ofList : ∀ hash policy items, P (BucketMap.ofList hash policy items).value)
  (insert : ∀ m k v, P m → P (m.insert k v).value) (erase : ∀ m k, P m → P (m.erase k).value)

include insert in
theorem insertAll_keeps (h : P m) (items : List (κ × ν)) : P (m.insertAll items).value := by
  rw [BucketMap.insertAll, Logged.fold_value]
  induction items generalizing m with
  | nil => exact h
  | cons item rest ih => exact ih (insert m item.1 item.2 h)

include empty ofList insert erase in
theorem Reachable.keeps (h : m.Reachable hash policy) : P m := by
  induction h with
  | empty => exact empty hash policy
  | ofList items => exact ofList hash policy items
  | fromJson read =>
    obtain ⟨items, rfl⟩ := Json.Decoder.run_record read
    exact ofList hash policy items
  | insert k v _ ih => exact insert _ k v ih
  | erase k _ ih => exact erase _ k ih
  | insertAll items _ ih => exact insertAll_keeps insert ih items

end

theorem ofList_tallied (hash : κ → UInt64) (policy : π) (items : List (κ × ν)) :
    (ofList hash policy items).value.Tallied :=
  (spread_tallied hash policy items.length items).1

theorem Reachable.tallied (h : m.Reachable hash policy) : m.Tallied :=
  h.keeps .empty ofList_tallied (fun _ k v m => m.insert k v) fun _ k m => m.erase k

variable [EquivBEq κ]

theorem Reachable.orderly (h : m.Reachable hash policy) :
    m.Orderly ∧ m.hash = hash ∧ m.policy = policy := by
  induction h with
  | empty => exact ⟨empty_orderly hash policy, rfl, rfl⟩
  | ofList items => exact ⟨(spread_orderly hash policy items.length items).1, rfl, rfl⟩
  | fromJson read =>
    obtain ⟨items, rfl⟩ := Json.Decoder.run_record read
    exact ⟨(spread_orderly hash policy items.length items).1, rfl, rfl⟩
  | @insert m k v _ ih =>
    obtain ⟨orderly, rfl, rfl⟩ := ih
    exact ⟨orderly.insert k v, insert_settings m k v⟩
  | @erase m k _ ih =>
    obtain ⟨orderly, rfl, rfl⟩ := ih
    exact ⟨orderly.erase k, erase_settings m k⟩
  | @insertAll m items _ ih =>
    obtain ⟨orderly, rfl, rfl⟩ := ih
    exact ⟨orderly.insertAll items, insertAll_settings m items⟩

theorem Reachable.own_settings (h : m.Reachable hash policy) : m.Reachable m.hash m.policy := by
  obtain ⟨-, rfl, rfl⟩ := h.orderly
  exact h

theorem Reachable.represents (h : Reachable hash policy m) (lawful : Respects hash) :
    ∃ items, Represents hash policy m items := by
  induction h with
  | empty => exact ⟨_, empty_represents hash policy⟩
  | ofList items => exact ⟨_, ofList_represents lawful policy items⟩
  | fromJson read =>
    obtain ⟨items, rfl⟩ := Json.Decoder.run_record read
    exact ⟨_, ofList_represents lawful policy items⟩
  | insert k v _ ih => exact ih.imp' _ fun _ old => old.insert lawful k v
  | erase k _ ih => exact ih.imp' _ fun _ old => old.erase lawful k
  | insertAll items _ ih => exact ih.imp' _ fun _ old => old.insertAll lawful items

end BucketMap

namespace BucketSet

variable {π κ : Type} [BEq κ] [LoadPolicy π] {hash : κ → UInt64} {policy : π}

/-- The sets with this hash and this policy. The second operand of an operation on two
sets may be any set, of any hash and policy. -/
inductive Reachable (hash : κ → UInt64) (policy : π) : BucketSet π κ → Prop
  | empty : Reachable hash policy (empty hash policy)
  | ofList (items : List κ) : Reachable hash policy (ofList hash policy items).value
  | fromJson [JsonValue κ] {text : String} {s : BucketSet π κ} :
    (fromJson hash policy text).value = .ok s → Reachable hash policy s
  | insert {s : BucketSet π κ} (a : κ) : Reachable hash policy s →
    Reachable hash policy (s.insert a).value
  | erase {s : BucketSet π κ} (a : κ) : Reachable hash policy s →
    Reachable hash policy (s.erase a).value
  | insertAll {s : BucketSet π κ} (items : List κ) : Reachable hash policy s →
    Reachable hash policy (s.insertAll items).value
  | union {s : BucketSet π κ} (w : BucketSet π κ) : Reachable hash policy s →
    Reachable hash policy (s.union w).value
  | intersection {s : BucketSet π κ} (w : BucketSet π κ) : Reachable hash policy s →
    Reachable hash policy (s.intersection w).value
  | difference {s : BucketSet π κ} (w : BucketSet π κ) : Reachable hash policy s →
    Reachable hash policy (s.difference w).value
  | symmetricDifference {s : BucketSet π κ} (w : BucketSet π κ) : Reachable hash policy s →
    Reachable hash policy (s.symmetricDifference w).value

theorem insertAll_map (s : BucketSet π κ) (items : List κ) :
    (s.insertAll items).value.map = (s.map.insertAll (items.map fun a => (a, ()))).value := by
  rw [insertAll, BucketMap.insertAll, Logged.fold_value, Logged.fold_value, List.foldl_map]
  induction items generalizing s with
  | nil => rfl
  | cons a rest ih => exact ih (s.insert a).value

variable {s : BucketSet π κ}

theorem Reachable.keeps {P : BucketMap π κ Unit → Prop}
    (empty : ∀ hash policy, P (.empty hash policy))
    (ofList : ∀ hash policy items, P (BucketMap.ofList hash policy items).value)
    (insert : ∀ m a u, P m → P (m.insert a u).value) (erase : ∀ m a, P m → P (m.erase a).value)
    (h : s.Reachable hash policy) : P s.map := by
  induction h with
  | empty => exact empty hash policy
  | ofList items => exact ofList hash policy _
  | fromJson read =>
    obtain ⟨items, rfl⟩ := Json.Decoder.run_record read
    exact ofList hash policy _
  | insert a _ ih => exact insert _ a () ih
  | erase a _ ih => exact erase _ a ih
  | @insertAll s items _ ih =>
    rw [insertAll_map]
    exact BucketMap.insertAll_keeps insert ih _
  | @union s w _ ih =>
    rw [BucketSet.union, insertAll_map]
    exact BucketMap.insertAll_keeps insert ih _
  | @intersection s w => exact ofList s.map.hash s.map.policy _
  | @difference s w => exact ofList s.map.hash s.map.policy _
  | @symmetricDifference s w => exact ofList s.map.hash s.map.policy _

theorem Reachable.tallied (h : s.Reachable hash policy) : s.map.Tallied :=
  h.keeps .empty BucketMap.ofList_tallied (fun _ a u m => m.insert a u) fun _ a m => m.erase a

variable [EquivBEq κ]

theorem ofList_orderly (hash : κ → UInt64) (policy : π) (items : List κ) :
    (ofList hash policy items).value.map.Orderly :=
  (BucketMap.spread_orderly hash policy _ (items.map fun a => (a, ()))).1

theorem Reachable.orderly (h : s.Reachable hash policy) : s.map.Orderly :=
  h.keeps BucketMap.empty_orderly
    (fun hash policy items => (BucketMap.spread_orderly hash policy items.length items).1)
    (fun _ a u m => m.insert a u) fun _ a m => m.erase a

theorem rebuild_represents {items : List (κ × Unit)} (lawful : Respects hash)
    (h : BucketMap.Represents hash policy s.map items) (elements : List κ) :
    ∃ items, BucketMap.Represents hash policy (s.rebuild elements).value.map items := by
  obtain ⟨_, rfl, rfl, _⟩ := h
  exact ⟨_, BucketMap.ofList_represents lawful s.map.policy (elements.map fun a => (a, ()))⟩

theorem Reachable.represents (h : Reachable hash policy s) (lawful : Respects hash) :
    ∃ items, BucketMap.Represents hash policy s.map items := by
  induction h with
  | empty => exact ⟨_, BucketMap.empty_represents hash policy⟩
  | ofList items => exact ⟨_, BucketMap.ofList_represents lawful policy _⟩
  | fromJson read =>
    obtain ⟨items, rfl⟩ := Json.Decoder.run_record read
    exact ⟨_, BucketMap.ofList_represents lawful policy _⟩
  | insert a _ ih => exact ih.imp' _ fun _ old => old.insert lawful a ()
  | erase a _ ih => exact ih.imp' _ fun _ old => old.erase lawful a
  | @insertAll s items _ ih =>
    rw [insertAll_map]
    exact ih.imp' _ fun _ old => old.insertAll lawful _
  | @union s w _ ih =>
    rw [BucketSet.union, insertAll_map]
    exact ih.imp' _ fun _ old => old.insertAll lawful _
  | intersection w _ ih => exact ih.elim fun _ old => rebuild_represents lawful old _
  | difference w _ ih => exact ih.elim fun _ old => rebuild_represents lawful old _
  | symmetricDifference w _ ih => exact ih.elim fun _ old => rebuild_represents lawful old _

end BucketSet

variable {π κ ν : Type} [BEq κ] [EquivBEq κ] [LoadPolicy π] {hash : κ → UInt64}

/-- However it was made, a map is well-formed, and so is the map inside a set. -/
theorem reachable_wellFormed (lawful : Respects hash) (policy : π) :
    (∀ m : BucketMap π κ ν, m.Reachable hash policy →
      m.WellFormed ∧ m.hash = hash ∧ m.policy = policy) ∧
    ∀ s : BucketSet π κ, s.Reachable hash policy →
      s.map.WellFormed ∧ s.map.hash = hash ∧ s.map.policy = policy := by
  constructor
  · intro m reachable
    obtain ⟨items, form⟩ := reachable.represents lawful
    exact ⟨form.wellFormed, form.hash_eq, form.policy_eq⟩
  · intro s reachable
    obtain ⟨items, form⟩ := reachable.represents lawful
    exact ⟨form.wellFormed, form.hash_eq, form.policy_eq⟩

theorem reachable_wellFormed_caseless :
    Respects (crc32Of : Caseless → UInt64) ∧
      let fewer := BucketMap.ofList crc32Of LoadFactors.default
        [(Caseless.mk "Ab", 1), (⟨"aB"⟩, 2), (⟨"c"⟩, 3)]
      let m := (fewer.value.erase ⟨"C"⟩).value
      let some := BucketSet.ofList crc32Of LoadFactors.default [Caseless.mk "Ab", ⟨"c"⟩]
      let w := BucketSet.ofList (fun _ => 0) LoadFactors.default [Caseless.mk "C", ⟨"d"⟩]
      let s := (some.value.symmetricDifference w.value).value
      (m.Reachable crc32Of .default ∧
        m.WellFormed ∧ m.hash = crc32Of ∧ m.policy = .default) ∧
      s.Reachable crc32Of .default ∧
        s.map.WellFormed ∧ s.map.hash = crc32Of ∧ s.map.policy = .default := by
  refine ⟨crc32Of_respects, ?_⟩
  intro fewer m some w s
  have full : fewer.value.Reachable crc32Of .default := .ofList _
  -- Without its type, which would be compared with `m` by evaluation.
  have madeMap := full.erase ⟨"C"⟩
  have first : some.value.Reachable crc32Of .default := .ofList _
  have madeSet := first.symmetricDifference w.value
  have all := reachable_wellFormed (ν := Nat) crc32Of_respects LoadFactors.default
  exact ⟨⟨madeMap, all.1 m madeMap⟩, madeSet, all.2 s madeSet⟩

end PersistentCollections
