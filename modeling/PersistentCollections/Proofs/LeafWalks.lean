import PersistentCollections.Proofs.BothEnds

/-! Walks that copy one leaf at a time. Such a walk gives out the elements of its range and
then none for ever, as a cursor does that goes forward on the same range. Wherever it copies,
the bounds of the copy lie in the leaf. -/

namespace PersistentCollections

namespace LeafCursor

variable {α : Type} {c : LeafCursor α} {items : List α}

structure Shows (c : LeafCursor α) (items : List α) : Prop where
  ready : c.Ready
  pending : c.pending = items

theorem ofRange_shows {v : TrieVector α} {start stop : Nat} (h : v.WellFormed)
    (ordered : start ≤ stop) (within : stop ≤ v.length) :
    (ofRange v start stop).Shows ((v.toList.drop start).take (stop - start)) :=
  ⟨⟨h, ordered, within⟩, rfl⟩

theorem keeps_shows : Walk.Keeps (Shows : LeafCursor α → List α → Prop) := by
  rintro c _ ⟨ready, rfl⟩
  refine ⟨ready.gives.remaining_eq, ?_⟩
  rcases ready.step_cases with ⟨still, none, -⟩ | ⟨a, d, moved, next, split, -⟩
  · rw [none]
    exact ⟨c, still, ready, none⟩
  · rw [split]
    exact ⟨d, moved, next, rfl⟩

/-- The entries of a leaf that a copy takes are there, and they are one at least. Nothing is
subtracted from less than itself. -/
structure CopyFits (c : LeafCursor α) (leaf : List α) : Prop where
  leafFor : c.vector.leafFor c.position = .ok leaf
  start_le : c.position / width * width ≤ c.stop
  first_lt : c.position % width < c.copyEnd leaf
  last_le : c.copyEnd leaf ≤ leaf.length

theorem Ready.copyFits (h : c.Ready) (inside : c.position < c.stop) :
    ∃ leaf, c.CopyFits leaf := by
  obtain ⟨leaf, reached, -, ends⟩ := h.leaf inside
  obtain ⟨further, -⟩ := leafEnd_bounds inside
  have place := c.leafStart_add
  exact ⟨leaf, reached, by omega, by omega, Nat.min_le_left _ _⟩

structure Stands (c : LeafCursor α) (items : List α) : Prop where
  remaining : c.remaining = items.length
  position_le : c.position ≤ c.stop
  unbreached : ∃ r, Walk.step c = .ok r
  /-- When the copy is used up and a next one is to be made. -/
  copyFits : c.copied = [] → c.position < c.stop → ∃ leaf, c.CopyFits leaf

theorem Shows.stands (h : c.Shows items) : c.Stands items := by
  obtain ⟨count, d, moved, -⟩ := keeps_shows c items h
  exact ⟨count, h.ready.position_le, ⟨_, moved⟩, fun _ inside => h.ready.copyFits inside⟩

/-- The elements in order, then none for ever, and the state behind any calls. -/
structure Yields (c : LeafCursor α) (items : List α) : Prop where
  lists : Walk.Lists c items
  answers : ∀ calls, (Calls.run Walk.answer c calls).1 = (Calls.run Walk.listAnswer items calls).1
  stands : ∀ calls,
    (Calls.run Walk.answer c calls).2.Stands (Calls.run Walk.listAnswer items calls).2

theorem Shows.yields (h : c.Shows items) : c.Yields items := by
  have run := keeps_shows.alike.run h
  exact ⟨keeps_shows.lists h, fun calls => (run calls).1, fun calls => (run calls).2.stands⟩

end LeafCursor

/-! ### Vectors and slices -/

/-- Every range is walked by copies of leaves, with the answers of a cursor. -/
structure TrieVector.WalkedByLeaves (v : TrieVector α) (items : List α) : Prop where
  leafCursor : v.leafCursor.Yields items ∧ Walk.Agree v.leafCursor v.cursor
  ofRange : ∀ start stop, start ≤ stop → stop ≤ items.length →
    (LeafCursor.ofRange v start stop).Yields ((items.drop start).take (stop - start)) ∧
      Walk.Agree (LeafCursor.ofRange v start stop) (Cursor.ofRange v start stop)

structure Slice.WalkedByLeaves (s : Slice α) (items : List α) : Prop where
  leafCursor : s.leafCursor.Yields items
  agree : Walk.Agree s.leafCursor s.cursor

theorem TrieVector.WellFormed.leaves_agree {v : TrieVector α} {start stop : Nat}
    (h : v.WellFormed) (ordered : start ≤ stop) (within : stop ≤ v.length) :
    (LeafCursor.ofRange v start stop).Yields ((v.toList.drop start).take (stop - start)) ∧
      Walk.Agree (LeafCursor.ofRange v start stop) (Cursor.ofRange v start stop) := by
  have leaves := LeafCursor.ofRange_shows h ordered within
  have entries := Cursor.ofRange_shows h ordered within
  exact ⟨leaves.yields, LeafCursor.keeps_shows.agree leaves Cursor.keeps_shows entries⟩

theorem TrieVector.Represents.walkedByLeaves {v : TrieVector α} {items : List α}
    (h : v.Represents items) : v.WalkedByLeaves items := by
  constructor
  · have whole := h.wellFormed.leaves_agree (Nat.zero_le _) (Nat.le_refl _)
    rw [h.length, h.toList, window_all, ← h.length] at whole
    exact whole
  · intro start stop ordered within
    rw [← h.toList]
    exact h.wellFormed.leaves_agree ordered (h.length ▸ within)

theorem Slice.Represents.walkedByLeaves {s : Slice α} {items : List α}
    (h : s.Represents items) : s.WalkedByLeaves items := by
  obtain ⟨yields, agree⟩ :=
    h.wellFormed.vector.leaves_agree h.wellFormed.start_le h.wellFormed.stop_le
  refine ⟨?_, agree⟩
  rw [← h.contents]
  exact yields

/-- On every version of every history the walks that copy leaves give out what it holds. -/
theorem histories_walked_by_leaves {α : Type} (vectorSteps : List (TrieVector.VersionStep α))
    (steps : List (Slice.VersionStep α)) :
    let vectors := History.run TrieVector.version [] vectorSteps
    let lists := History.run TrieVector.listVersion [] vectorSteps
    List.Forall₂ TrieVector.WalkedByLeaves vectors lists ∧
      List.Forall₂ Slice.WalkedByLeaves (History.run (Slice.version vectors) [] steps)
        (History.run (Slice.listVersion lists) [] steps) := by
  intro vectors lists
  obtain ⟨backing, windows⟩ := Slice.histories_represent vectorSteps steps
  exact ⟨backing.imp fun _ _ h => h.walkedByLeaves, windows.imp fun _ _ h => h.walkedByLeaves⟩

end PersistentCollections
