import PersistentCollections.TrieVector.Cursor
import PersistentCollections.Proofs.VectorShape
import PersistentCollections.Proofs.Walks

/-! Walks over a range of a vector. Each gives out the elements of the range in order,
whether it keeps the leaf under its end or copies one leaf at a time. -/

namespace PersistentCollections

open TrieVector (WellFormed)

theorem window_cons {α : Type} {items : List α} {start stop : Nat} {a : α}
    (found : items[start]? = some a) (inside : start < stop) :
    (items.drop start).take (stop - start) =
      a :: (items.drop (start + 1)).take (stop - (start + 1)) := by
  obtain ⟨bound, rfl⟩ := List.getElem?_eq_some_iff.1 found
  have count : stop - start = stop - (start + 1) + 1 := by omega
  rw [List.drop_eq_getElem_cons bound, count, List.take_succ_cons]

theorem window_append {α : Type} (items : List α) {start middle stop : Nat}
    (before : start ≤ middle) (behind : middle ≤ stop) :
    (items.drop start).take (middle - start) ++ (items.drop middle).take (stop - middle) =
      (items.drop start).take (stop - start) := by
  have count : stop - start = middle - start + (stop - middle) := by omega
  have place : start + (middle - start) = middle := by omega
  rw [count, List.take_add, List.drop_drop, place]

theorem window_all {α : Type} (items : List α) :
    (items.drop 0).take (items.length - 0) = items := by
  rw [List.drop_zero, Nat.sub_zero, List.take_length]

inductive End where
  | front
  | back

namespace Cursor

variable {α : Type} {c : Cursor α}

/-- The leaves that a cursor keeps are those under its two ends, unless an end stands
where the next step looks its leaf up. -/
structure Ready (c : Cursor α) : Prop where
  vector : c.vector.WellFormed
  back_le : c.back ≤ c.vector.length
  frontLeaf : c.front < c.back → c.front % width ≠ 0 →
    c.vector.leafFor c.front = .ok c.frontLeaf
  backLeaf : c.front < c.back → c.back % width ≠ 0 →
    c.vector.leafFor (c.back - 1) = .ok c.backLeaf

theorem ofRangeChecked_ready {v : TrieVector α} {stop : Nat} (h : v.WellFormed) (start : Nat)
    (within : stop ≤ v.length) :
    ∃ c, ofRangeChecked v start stop = .ok c ∧ c.Ready ∧ c.vector = v ∧ c.front = start ∧
      c.back = stop := by
  by_cases inside : start < stop
  · obtain ⟨front, atFront⟩ : ∃ leaf, v.leafFor start = .ok leaf := ⟨_, h.leafFor_eq (by omega)⟩
    obtain ⟨back, atBack⟩ : ∃ leaf, v.leafFor (stop - 1) = .ok leaf :=
      ⟨_, h.leafFor_eq (by omega)⟩
    refine ⟨⟨v, front, back, start, stop⟩, ?_, ⟨h, within, fun _ _ => atFront, fun _ _ => atBack⟩,
      rfl, rfl, rfl⟩
    simp only [ofRangeChecked, inside, if_true, atFront, atBack, bind, Except.bind, pure,
      Except.pure]
  · refine ⟨⟨v, [], [], start, stop⟩, if_neg inside, ⟨h, within, fun less => absurd less inside,
      fun less => absurd less inside⟩, rfl, rfl, rfl⟩

theorem ofRangeChecked_eq {v : TrieVector α} {stop : Nat} (h : v.WellFormed) (start : Nat)
    (within : stop ≤ v.length) : ofRangeChecked v start stop = .ok (ofRange v start stop) := by
  obtain ⟨c, run, -⟩ := ofRangeChecked_ready h start within
  rw [ofRange, run]

theorem ofRange_ready {v : TrieVector α} {stop : Nat} (h : v.WellFormed) (start : Nat)
    (within : stop ≤ v.length) :
    (ofRange v start stop).Ready ∧ (ofRange v start stop).vector = v ∧
      (ofRange v start stop).front = start ∧ (ofRange v start stop).back = stop := by
  obtain ⟨c, run, result⟩ := ofRangeChecked_ready h start within
  rw [ofRange, run]
  exact result

theorem Ready.step_eq {a : α} (h : c.Ready) (inside : c.front < c.back)
    (found : c.vector.toList[c.front]? = some a) :
    ∃ leaf, c.step = .ok (some a, { c with frontLeaf := leaf, front := c.front + 1 }) ∧
      Ready { c with frontLeaf := leaf, front := c.front + 1 } := by
  have bound : c.front < c.vector.length := Nat.lt_of_lt_of_le inside h.back_le
  have reached := h.vector.leafFor_eq bound
  have entry := TrieVector.entry_of_leaf found
  refine ⟨(c.vector.toList.drop (c.front / width * width)).take width, ?_, ?_⟩
  · by_cases aligned : c.front % width = 0
    · rw [aligned] at entry
      simp only [step, inside, aligned, if_true, reached, entry, bind, Except.bind, pure,
        Except.pure]
    · have kept : c.frontLeaf = (c.vector.toList.drop (c.front / width * width)).take width :=
        Except.ok.inj ((h.frontLeaf inside aligned).symm.trans reached)
      simp only [step, inside, aligned, if_true, if_false, kept, entry, bind, Except.bind, pure,
        Except.pure]
  · refine ⟨h.vector, h.back_le, fun more aligned => ?_, fun more => h.backLeaf inside⟩
    have less : c.front + 1 < c.back := more
    have offset : (c.front + 1) % width ≠ 0 := aligned
    have same : (c.front + 1) / width = c.front / width := by
      simp only [width] at *
      omega
    rw [h.vector.leafFor_eq (Nat.lt_of_lt_of_le less h.back_le), same]

theorem Ready.stepBack_eq {a : α} (h : c.Ready) (inside : c.front < c.back)
    (found : c.vector.toList[c.back - 1]? = some a) :
    ∃ leaf, c.stepBack = .ok (some a, { c with backLeaf := leaf, back := c.back - 1 }) ∧
      Ready { c with backLeaf := leaf, back := c.back - 1 } := by
  have within := h.back_le
  have bound : c.back - 1 < c.vector.length := by omega
  have reached := h.vector.leafFor_eq bound
  have entry := TrieVector.entry_of_leaf found
  refine ⟨(c.vector.toList.drop ((c.back - 1) / width * width)).take width, ?_, ?_⟩
  · by_cases aligned : (c.back - 1) % width = width - 1
    · rw [aligned] at entry
      simp only [stepBack, inside, aligned, if_true, reached, entry, bind, Except.bind, pure,
        Except.pure]
    · have unaligned : c.back % width ≠ 0 := by
        simp only [width] at *
        omega
      have kept : c.backLeaf = (c.vector.toList.drop ((c.back - 1) / width * width)).take width :=
        Except.ok.inj ((h.backLeaf inside unaligned).symm.trans reached)
      simp only [stepBack, inside, aligned, if_true, if_false, kept, entry, bind, Except.bind,
        pure, Except.pure]
  · refine ⟨h.vector, Nat.le_of_lt bound, fun _ => h.frontLeaf inside, fun more aligned => ?_⟩
    have less : c.front < c.back - 1 := more
    have offset : (c.back - 1) % width ≠ 0 := aligned
    have same : (c.back - 1 - 1) / width = (c.back - 1) / width := by
      simp only [width] at *
      omega
    change c.vector.leafFor (c.back - 1 - 1) = _
    rw [h.vector.leafFor_eq (by omega), same]

theorem Ready.gives (h : c.Ready) :
    Walk.Gives c ((c.vector.toList.drop c.front).take (c.back - c.front)) := by
  induction count : c.back - c.front generalizing c with
  | zero =>
    have outside : ¬c.front < c.back := by omega
    refine .done ?_ count
    change c.step = _
    rw [step, if_neg outside]
  | succ n ih =>
    have inside : c.front < c.back := by omega
    have length := h.vector.length_toList
    have within := h.back_le
    have found : c.vector.toList[c.front]? = some c.vector.toList[c.front] :=
      List.getElem?_eq_getElem (by omega)
    obtain ⟨leaf, moved, ready⟩ := h.step_eq inside found
    have shorter : c.back - (c.front + 1) = n := by omega
    rw [← count, window_cons found inside]
    refine .item moved ?_ ?_
    · change c.back - c.front = _
      rw [List.length_take, List.length_drop]
      omega
    · rw [shorter]
      exact ih ready shorter

theorem ofRange_gives {v : TrieVector α} {stop : Nat} (h : v.WellFormed) (start : Nat)
    (within : stop ≤ v.length) :
    Walk.Gives (ofRange v start stop) ((v.toList.drop start).take (stop - start)) := by
  obtain ⟨ready, vector, front, back⟩ := ofRange_ready h start within
  have gives := ready.gives
  rwa [vector, front, back] at gives

end Cursor

namespace LeafCursor

variable {α : Type} {c : LeafCursor α}

structure Ready (c : LeafCursor α) : Prop where
  vector : c.vector.WellFormed
  position_le : c.position ≤ c.stop
  stop_le : c.stop ≤ c.vector.length

def pending (c : LeafCursor α) : List α :=
  c.copied ++ (c.vector.toList.drop c.position).take (c.stop - c.position)

/-- The end of the leaf that holds the position, or of the range if that comes first. -/
def leafEnd (c : LeafCursor α) : Nat :=
  min (c.position / width * width + width) c.stop

def copyEnd (c : LeafCursor α) (leaf : List α) : Nat :=
  min leaf.length (c.stop - c.position / width * width)

theorem leafStart_add (c : LeafCursor α) :
    c.position / width * width + c.position % width = c.position := by
  rw [Nat.mul_comm]
  exact Nat.div_add_mod c.position width

theorem leafEnd_bounds (inside : c.position < c.stop) :
    c.position < c.leafEnd ∧ c.leafEnd ≤ c.stop := by
  have below : c.position % width < width := Nat.mod_lt _ (by decide)
  have place := c.leafStart_add
  rw [leafEnd]
  omega

theorem Ready.leaf (h : c.Ready) (inside : c.position < c.stop) :
    ∃ leaf, c.vector.leafFor c.position = .ok leaf ∧
      leaf = (c.vector.toList.drop (c.position / width * width)).take width ∧
      c.position / width * width + c.copyEnd leaf = c.leafEnd := by
  have within := h.stop_le
  refine ⟨_, h.vector.leafFor_eq (Nat.lt_of_lt_of_le inside within), rfl, ?_⟩
  have place := c.leafStart_add
  rw [copyEnd, leafEnd, List.length_take, List.length_drop, h.vector.length_toList]
  omega

theorem Ready.copy {a : α} (h : c.Ready) (empty : c.copied = []) (inside : c.position < c.stop)
    (found : c.vector.toList[c.position]? = some a) :
    c.step = .ok (some a, { c with
      position := c.leafEnd
      copied := (c.vector.toList.drop (c.position + 1)).take (c.leafEnd - (c.position + 1)) }) := by
  obtain ⟨leaf, reached, whole, ends⟩ := h.leaf inside
  obtain ⟨further, -⟩ := leafEnd_bounds inside
  have place := c.leafStart_add
  have shorter : min (c.copyEnd leaf) width = c.copyEnd leaf := by
    rw [copyEnd, whole, List.length_take]
    omega
  generalize last : c.copyEnd leaf = k at ends shorter
  have valid : ¬k < c.position % width := by omega
  have rest : k - c.position % width = c.leafEnd - c.position := by omega
  have cut : (leaf.take k).drop (c.position % width) =
      a :: (c.vector.toList.drop (c.position + 1)).take (c.leafEnd - (c.position + 1)) := by
    rw [whole, List.take_take, shorter, List.drop_take, List.drop_drop, place, rest,
      window_cons found further]
  rw [copyEnd] at last
  simp only [step, empty, inside, if_true, reached, last, valid, if_false, cut, ends, bind,
    Except.bind, pure, Except.pure]

theorem Ready.step_cases (h : c.Ready) :
    (c.step = .ok (none, c) ∧ c.pending = [] ∧ c.remaining = 0) ∨
      ∃ a d, c.step = .ok (some a, d) ∧ d.Ready ∧ c.pending = a :: d.pending ∧
        c.remaining = d.remaining + 1 := by
  cases copied : c.copied with
  | cons a rest =>
    let d : LeafCursor α := { c with copied := rest }
    refine .inr ⟨a, d, ?_, ⟨h.vector, h.position_le, h.stop_le⟩, ?_, ?_⟩
    · simp only [step, copied, d]
    · rw [pending, copied]
      rfl
    · rw [remaining, copied, List.length_cons]
      exact Nat.add_right_comm _ _ _
  | nil =>
    by_cases inside : c.position < c.stop
    · have length := h.vector.length_toList
      have within := h.stop_le
      have found : c.vector.toList[c.position]? = some c.vector.toList[c.position] :=
        List.getElem?_eq_getElem (by omega)
      obtain ⟨further, most⟩ := leafEnd_bounds inside
      let d : LeafCursor α := { c with
        position := c.leafEnd
        copied := (c.vector.toList.drop (c.position + 1)).take (c.leafEnd - (c.position + 1)) }
      refine .inr ⟨c.vector.toList[c.position], d, h.copy copied inside found,
        ⟨h.vector, most, h.stop_le⟩, ?_, ?_⟩
      · rw [pending, copied, List.nil_append, window_cons found inside]
        exact congrArg _ (window_append _ further most).symm
      · simp only [remaining, copied, d, List.length_nil, List.length_take, List.length_drop]
        omega
    · have size : c.stop - c.position = 0 := Nat.sub_eq_zero_of_le (Nat.le_of_not_lt inside)
      refine .inl ⟨?_, ?_, ?_⟩
      · simp only [step, copied, inside, if_false]
      · rw [pending, copied, size, List.take_zero]
        rfl
      · rw [remaining, copied, size]
        rfl

theorem Ready.gives (h : c.Ready) : Walk.Gives c c.pending := by
  induction count : c.remaining generalizing c with
  | zero =>
    rcases h.step_cases with ⟨still, none, left⟩ | ⟨a, d, _, _, _, more⟩
    · rw [none]
      exact .done still left
    · omega
  | succ n ih =>
    rcases h.step_cases with ⟨_, _, left⟩ | ⟨a, d, moved, ready, split, more⟩
    · omega
    · have fewer : d.remaining = n := by omega
      have later := ih ready fewer
      rw [split]
      refine .item moved ?_ later
      rw [← later.remaining_eq]
      exact more

end LeafCursor

namespace TrieVector

variable {α : Type} {v : TrieVector α}

theorem WellFormed.cursor_gives (h : v.WellFormed) : Walk.Gives v.cursor v.toList := by
  have gives := Cursor.ofRange_gives h 0 (Nat.le_refl v.length)
  rw [← h.length_toList, window_all] at gives
  rw [cursor, ← h.length_toList]
  exact gives

theorem WellFormed.leafCursor_gives (h : v.WellFormed) : Walk.Gives v.leafCursor v.toList := by
  have ready : v.leafCursor.Ready := ⟨h, Nat.zero_le _, Nat.le_refl _⟩
  have all : v.leafCursor.pending = v.toList := by
    change [] ++ (v.toList.drop 0).take (v.length - 0) = v.toList
    rw [← h.length_toList, window_all, List.nil_append]
  exact all ▸ ready.gives

theorem WellFormed.rest_cursor (h : v.WellFormed) : (Walk.rest v.cursor).1 = v.toList :=
  h.cursor_gives.rest_eq

theorem WellFormed.rest_leafCursor (h : v.WellFormed) :
    (Walk.rest v.leafCursor).1 = v.toList :=
  h.leafCursor_gives.rest_eq

end TrieVector

end PersistentCollections
