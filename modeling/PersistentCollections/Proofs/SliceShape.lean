import PersistentCollections.Slice
import PersistentCollections.Proofs.Iteration

/-! What a slice shows of its backing vector, and what its updates do to the whole of
that vector. The window lies within the vector before and after every operation. An
append writes over what stands behind the window and then goes on as an append to the
vector; both together are one equation on the backing elements. -/

namespace PersistentCollections.Slice

variable {α : Type} {s : Slice α}

structure WellFormed (s : Slice α) : Prop where
  vector : s.vector.WellFormed
  start_le : s.start ≤ s.stop
  stop_le : s.stop ≤ s.vector.length

def contents (s : Slice α) : List α := (s.vector.toList.drop s.start).take (s.stop - s.start)

namespace WellFormed

theorem length_contents (h : s.WellFormed) : s.contents.length = s.length := by
  have behind := h.stop_le
  rw [contents, List.length_take, List.length_drop, h.vector.length_toList, Slice.length]
  omega

theorem cursor_gives (h : s.WellFormed) : Walk.Gives s.cursor s.contents :=
  Cursor.ofRange_gives h.vector s.start h.stop_le

theorem leafCursor_gives (h : s.WellFormed) : Walk.Gives s.leafCursor s.contents :=
  LeafCursor.Ready.gives ⟨h.vector, h.start_le, h.stop_le⟩

theorem toList_eq (h : s.WellFormed) : s.toList = s.contents := h.cursor_gives.rest_eq

theorem get?_eq {index : Nat} (h : s.WellFormed) (inside : index < s.length) :
    s.vector.get? (s.start + index) = s.contents[index]? := by
  rw [Slice.length] at inside
  rw [h.vector.get?_eq, contents, List.getElem?_take_of_lt inside, List.getElem?_drop]

theorem slice_eq {start stop : Nat} (h : s.WellFormed) (ordered : start ≤ stop)
    (within : stop ≤ s.length) :
    WellFormed ⟨s.vector, s.start + start, s.start + stop⟩ ∧
      contents ⟨s.vector, s.start + start, s.start + stop⟩ =
        (s.contents.drop start).take (stop - start) := by
  have before := h.start_le
  have behind := h.stop_le
  rw [Slice.length] at within
  have bound : s.start + stop ≤ s.vector.length := by omega
  have width : s.start + stop - (s.start + start) = stop - start := by omega
  have shorter : min (stop - start) (s.stop - s.start - start) = stop - start := by omega
  refine ⟨⟨h.vector, Nat.add_le_add_left ordered _, bound⟩, ?_⟩
  simp only [contents, List.drop_take, List.take_take, List.drop_drop, width, shorter]

theorem start_add_lt {index : Nat} (h : s.WellFormed) (inside : index < s.length) :
    s.start + index < s.vector.length := by
  have behind := h.stop_le
  rw [Slice.length] at inside
  omega

theorem set_eq {index : Nat} (h : s.WellFormed) (a : α) (inside : index < s.length) :
    WellFormed { s with vector := s.vector.replace (s.start + index) a } ∧
      contents { s with vector := s.vector.replace (s.start + index) a } =
        s.contents.set index a := by
  have bound := h.start_add_lt inside
  obtain ⟨vector, changed⟩ := h.vector.replace_eq a bound
  have same := h.vector.length_replace a bound
  refine ⟨⟨vector, h.start_le, same ▸ h.stop_le⟩, ?_⟩
  have after : ¬s.start + index < s.start := Nat.not_lt.2 (Nat.le_add_right _ _)
  simp only [contents, changed, List.drop_set, after, if_false, Nat.add_sub_cancel_left,
    List.take_set]

end WellFormed

/-! ### Appending -/

/-- What overwriting from `stop` on makes of a vector: some of the items are written, the
others left over, and none left over unless the end of the vector is reached. -/
structure Overwritten (v : TrieVector α) (stop : Nat) (items written left : List α)
    (w : TrieVector α) : Prop where
  vector : w.WellFormed
  backing : w.toList = v.toList.take stop ++ written ++ v.toList.drop (stop + written.length)
  length : w.length = v.length
  end_le : stop + written.length ≤ v.length
  items : items = written ++ left
  rest : left = [] ∨ stop + written.length = v.length

theorem split_replace {v : TrieVector α} {index : Nat} (h : v.WellFormed) (a : α)
    (inside : index < v.length) :
    (v.replace index a).toList.take (index + 1) = v.toList.take index ++ [a] ∧
      ∀ n, (v.replace index a).toList.drop (index + 1 + n) = v.toList.drop (index + 1 + n) := by
  have length := h.length_toList
  rw [(h.replace_eq a inside).2]
  refine ⟨?_, fun n => List.drop_set_of_lt (by omega)⟩
  rw [List.set_eq_take_append_cons_drop, if_pos (by omega), List.take_append,
    List.length_take_of_le (by omega), List.take_take]
  simp

theorem overwrite_eq {v : TrieVector α} {stop : Nat} (h : v.WellFormed) (within : stop ≤ v.length)
    (items : List α) : ∃ written left w,
      overwrite v stop items = (w, stop + written.length, left) ∧
        Overwritten v stop items written left w := by
  -- Item by item: each of them moves the end by one, and what is in front of it stays.
  induction items generalizing v stop with
  | nil => exact ⟨[], [], v, rfl, h, by simp, rfl, within, rfl, .inl rfl⟩
  | cons a rest ih =>
    by_cases inside : stop < v.length
    · have vector := (h.replace_eq a inside).1
      have same := h.length_replace a inside
      obtain ⟨first, behind⟩ := split_replace h a inside
      have next : stop + 1 ≤ (v.replace stop a).length := by omega
      obtain ⟨written, left, w, run, result⟩ := ih vector next
      have moved : stop + 1 + written.length = stop + (a :: written).length := by
        rw [List.length_cons, Nat.add_right_comm]
        rfl
      refine ⟨a :: written, left, w, ?_, result.vector, ?_, result.length.trans same, ?_, ?_, ?_⟩
      · rw [overwrite, if_pos inside, run, moved]
      · rw [result.backing, first, behind, moved, List.append_assoc (v.toList.take stop)]
        rfl
      · exact moved ▸ same ▸ result.end_le
      · rw [List.cons_append, ← result.items]
      · exact moved ▸ same ▸ result.rest
    · refine ⟨[], a :: rest, v, ?_, h, by simp, rfl, within, rfl, .inr ?_⟩
      · rw [overwrite, if_neg inside]
        rfl
      · exact Nat.le_antisymm within (Nat.not_lt.1 inside)

/-- The items stand behind the window, in the place of as many elements as there are. -/
structure Appended (s : Slice α) (items : List α) (r : Slice α) : Prop where
  vector : r.vector.WellFormed
  backing : r.vector.toList =
    s.vector.toList.take s.stop ++ items ++ s.vector.toList.drop (s.stop + items.length)
  start_eq : r.start = s.start
  stop_eq : r.stop = s.stop + items.length

theorem append_cases (s : Slice α) (items : List α) {v : TrieVector α} {stop : Nat}
    {left : List α} (run : overwrite s.vector s.stop items = (v, stop, left)) :
    (stop = v.length ∧ s.append items = (v.append left).map fun w => ⟨w, s.start, w.length⟩) ∨
    (stop ≠ v.length ∧ s.append items = .pure ⟨v, s.start, stop⟩) := by
  simp only [append, run]
  by_cases reached : stop = v.length
  · exact .inl ⟨reached, if_pos reached⟩
  · exact .inr ⟨reached, if_neg reached⟩

theorem WellFormed.appended (h : s.WellFormed) (items : List α) :
    Appended s items (s.append items).value := by
  obtain ⟨written, left, v, run, result⟩ := overwrite_eq h.vector h.stop_le items
  obtain ⟨vector, backing, length, end_le, rfl, rest⟩ := result
  have total := h.vector.length_toList
  rcases append_cases s _ run with ⟨reached, made⟩ | ⟨before, made⟩ <;> rw [made]
  · -- Behind the last overwritten element there is nothing, so the rest goes to the end.
    have none (n : Nat) : s.vector.toList.drop (s.stop + written.length + n) = [] :=
      List.drop_eq_nil_of_le (by omega)
    obtain ⟨wellFormed, longer⟩ := vector.append_eq left
    refine ⟨wellFormed, ?_, rfl, ?_⟩
    · have nothing := none 0
      rw [Nat.add_zero] at nothing
      rw [Logged.map_value, longer, backing, nothing, List.length_append, ← Nat.add_assoc, none,
        List.append_nil, List.append_nil, List.append_assoc]
    · rw [Logged.map_value, vector.length_append, ← reached, List.length_append, Nat.add_assoc]
  · obtain rfl : left = [] := rest.resolve_right fun reached => before (reached.trans length.symm)
    rw [List.append_nil]
    exact ⟨vector, backing, rfl, rfl⟩

theorem WellFormed.append_eq (h : s.WellFormed) (items : List α) :
    (s.append items).value.WellFormed ∧ (s.append items).value.contents = s.contents ++ items := by
  obtain ⟨vector, backing, start_eq, stop_eq⟩ := h.appended items
  have before := h.start_le
  have behind := h.stop_le
  have front : (s.vector.toList.take s.stop).length = s.stop :=
    List.length_take_of_le (by rw [h.vector.length_toList]; exact behind)
  refine ⟨⟨vector, ?_, ?_⟩, ?_⟩
  · omega
  · rw [← vector.length_toList, backing, List.length_append, List.length_append, front, stop_eq]
    omega
  · have window : ((s.vector.toList.take s.stop).drop s.start ++ items).length =
        s.stop + items.length - s.start := by
      rw [List.length_append, List.length_drop, front]
      omega
    rw [contents, contents, backing, start_eq, stop_eq, List.append_assoc,
      List.drop_append_of_le_length (by omega), ← List.append_assoc, List.take_left' window,
      List.drop_take]

end PersistentCollections.Slice
