import PersistentCollections.Proofs.ExactFactors
import PersistentCollections.Proofs.MapOrder

/-! Both walks over a map, the one by reference and the one that copies leaves, give out
every item once, bucket by bucket, and then none for ever; and so do the walks over a set.
Whatever was asked of them before, the number of items to come is known exactly, and the
loop behind the next step ends, however many buckets without items are in its way. All
this needs of a map is that its items are counted right, so it holds for any keys. -/

namespace PersistentCollections

/-- A walk that answers as the list of the items to come does. What it leaves behind any
calls stands for what the list leaves. -/
structure Walk.Yields {γ α : Type} [Walk γ α] (stands : γ → List α → Prop) (c : γ)
    (items : List α) : Prop where
  lists : Lists c items
  answers : ∀ calls, (Calls.run answer c calls).1 = (Calls.run listAnswer items calls).1
  stands : ∀ calls, stands (Calls.run answer c calls).2 (Calls.run listAnswer items calls).2

theorem Walk.Keeps.yields {γ α : Type} [Walk γ α] {R stands : γ → List α → Prop} {c : γ}
    {items : List α} (h : Keeps R) (each : ∀ {c items}, R c items → stands c items)
    (start : R c items) : Yields stands c items := by
  have run := h.alike.run start
  exact ⟨h.lists start, fun calls => (run calls).1, fun calls => each (run calls).2⟩

section

variable {γ κ ν : Type} [Walk γ (Option (Bucket κ ν))]

/-- A walk over items with these to come: it counts them, and its next step comes to an end. -/
structure ItemCursor.Stands (c : ItemCursor γ κ ν) (items : List (κ × ν)) : Prop where
  remaining : Walk.remaining c = items.length
  ends : ∃ r, c.Turns r ∧ Walk.step c = .ok r

theorem ItemCursor.Pending.stands {c : ItemCursor γ κ ν} {items : List (κ × ν)}
    (h : c.Pending items) : c.Stands items := by
  obtain ⟨d, moved, turns, _⟩ := h.step_eq
  exact ⟨(keeps_pending c items h).1, _, turns, moved⟩

structure KeyCursor.Stands (c : KeyCursor γ κ ν) (keys : List κ) : Prop where
  remaining : Walk.remaining c = keys.length
  ends : ∃ item later, c.items.Turns (item, later) ∧
    Walk.step c = .ok (item.map Prod.fst, KeyCursor.mk later)

theorem KeyCursor.Pending.stands {c : KeyCursor γ κ ν} {keys : List κ} (h : c.Pending keys) :
    c.Stands keys := by
  have count := (keeps_pending c keys h).1
  obtain ⟨items, pending, -⟩ := h
  obtain ⟨d, moved, turns, _⟩ := pending.step_eq
  refine ⟨count, items.head?, d, turns, ?_⟩
  simp only [Walk.step] at moved ⊢
  simp only [moved, bind, Except.bind, pure, Except.pure]

end

variable {π κ ν : Type} [BEq κ] {hash : κ → UInt64} {policy : π}

/-- What the walks over a map give out, and where they are then. -/
structure BucketMap.Walked (hash : κ → UInt64) (m : BucketMap π κ ν) : Prop where
  buckets : m.toList = (List.range m.buckets.length).flatMap m.bucket
  cursor : Walk.Yields ItemCursor.Stands m.cursor m.toList
  leafCursor : Walk.Yields ItemCursor.Stands m.leafCursor m.toList
  agree : Walk.Agree m.cursor m.leafCursor
  /-- If equal keys have equal hashes, these are the items that can be found, each by its key. -/
  once : ∀ [EquivBEq κ], Respects hash → Association.Distinct m.toList ∧
    ∀ k item, m.find? k = some item ↔ item ∈ m.toList ∧ (item.1 == k) = true

structure BucketSet.Walked (hash : κ → UInt64) (s : BucketSet π κ) : Prop where
  buckets : s.toList =
    (List.range s.map.buckets.length).flatMap fun i => (s.map.bucket i).map Prod.fst
  cursor : Walk.Yields KeyCursor.Stands s.cursor s.toList
  leafCursor : Walk.Yields KeyCursor.Stands s.leafCursor s.toList
  agree : Walk.Agree s.cursor s.leafCursor
  once : ∀ [EquivBEq κ], Respects hash →
    BucketSet.Apart s.toList ∧ ∀ a, s.contains a = s.toList.any (· == a)

variable [LoadPolicy π]

theorem BucketMap.Reachable.walked {m : BucketMap π κ ν} (h : m.Reachable hash policy) :
    m.Walked hash := by
  have cursor := h.tallied.cursor_pending
  have leafCursor := h.tallied.leafCursor_pending
  refine ⟨h.tallied.tabled.toList_eq, ?_, ?_, ?_, ?_⟩
  · exact ItemCursor.keeps_pending.yields ItemCursor.Pending.stands cursor
  · exact ItemCursor.keeps_pending.yields ItemCursor.Pending.stands leafCursor
  · exact ItemCursor.keeps_pending.agree cursor ItemCursor.keeps_pending leafCursor
  · intro _ lawful
    obtain ⟨_, wellFormed, rfl, _, _⟩ := h.represents lawful
    have distinct := wellFormed.placed.distinct
    refine ⟨distinct, fun k item => ?_⟩
    rw [wellFormed.find?_eq lawful, toList_eq_table, distinct.find?_eq_some_iff]

theorem BucketSet.Reachable.walked {s : BucketSet π κ} (h : s.Reachable hash policy) :
    s.Walked hash := by
  have cursor : s.cursor.Pending s.toList := ⟨_, h.tallied.cursor_pending, rfl⟩
  have leafCursor : s.leafCursor.Pending s.toList := ⟨_, h.tallied.leafCursor_pending, rfl⟩
  refine ⟨?_, ?_, ?_, ?_, ?_⟩
  · rw [toList, BucketMap.keys, h.tallied.tabled.toList_eq, List.map_flatMap]
  · exact KeyCursor.keeps_pending.yields KeyCursor.Pending.stands cursor
  · exact KeyCursor.keeps_pending.yields KeyCursor.Pending.stands leafCursor
  · exact KeyCursor.keeps_pending.agree cursor KeyCursor.keeps_pending leafCursor
  · intro _ lawful
    have all := h.represents_toList lawful
    exact ⟨all.apart, all.contains_eq lawful⟩

/-- Whatever history a map or a set has, and whatever keys are taken for equal, the walks
over it give out what is stored and nothing else. -/
theorem walks_exact (hash : κ → UInt64) (policy : π) :
    (∀ m : BucketMap π κ ν, m.Reachable hash policy → m.Walked hash) ∧
      ∀ s : BucketSet π κ, s.Reachable hash policy → s.Walked hash :=
  ⟨fun _ reachable => reachable.walked, fun _ reachable => reachable.walked⟩

theorem walks_exact_one_hash :
    let items := [(1, 10), (2, 20), (3, 30), (4, 40), (5, 50)]
    let m := (BucketMap.ofList (fun _ : Nat => 0) ExactFactors.default items).value
    let s := (BucketSet.ofList (fun _ : Nat => 0) ExactFactors.default [1, 2, 1]).value
    (m.Reachable (fun _ => 0) .default ∧ m.Walked fun _ => 0) ∧
      (m.buckets.length = 2 ∧ m.bucket 1 = []) ∧
      (Calls.run Walk.answer m.leafCursor [.nth 3, .next, .next]).1 =
        [some (4, 40), some (5, 50), none] ∧
      s.Reachable (fun _ => 0) .default ∧ s.Walked fun _ => 0 := by
  intro items m s
  have made : m.Reachable (fun _ => 0) .default := .ofList items
  have some : s.Reachable (fun _ => 0) .default := .ofList [1, 2, 1]
  obtain ⟨maps, sets⟩ := walks_exact (ν := Nat) (fun _ : Nat => 0) ExactFactors.default
  have walked := maps m made
  have spread : BucketMap.Distributed (fun _ => 0) (bucketCount ExactFactors.default 5)
      (Bucket.gather items) m :=
    BucketMap.spread_distributed (fun _ _ _ => rfl) ExactFactors.default 5 items
  rw [ExactFactors.bucketCount_default] at spread
  have front : m.bucket 0 = items := spread.share 0 (by decide)
  have back : m.bucket 1 = [] := spread.share 1 (by decide)
  have all : m.toList = items := by
    rw [walked.buckets, spread.buckets]
    simp [List.range_succ, front, back]
  refine ⟨⟨made, walked⟩, ⟨spread.buckets, back⟩, ?_, some, sets s some⟩
  rw [walked.leafCursor.answers, all]
  rfl

end PersistentCollections
