import PersistentCollections.Proofs.RootGrowth
import PersistentCollections.Proofs.SliceHistory

/-! The whole effect of an append to a slice. The backing vector keeps what stands in front
of the end of the window; then come the items, in the place of as many elements as there
are; and what stands behind those stays. Only by the items that run past its end does the
vector get longer, so only they can make its root grow. -/

namespace PersistentCollections.Slice

variable {α : Type} {s : Slice α}

/-- An append with this effect on the backing vector, that reports what this effect asks. -/
structure Lengthened (s : Slice α) (items : List α) (r : Logged (Slice α)) : Prop
    extends Appended s items r.value where
  length : r.value.vector.length = max s.vector.length (s.stop + items.length)
  reports : TrieVector.Reports s.vector.length (s.stop + items.length - s.vector.length) r.events
  reused : s.stop + items.length ≤ s.vector.length →
    r.value.vector.length = s.vector.length ∧ r.value.vector.height = s.vector.height ∧
      r.events = []

theorem Appended.length_eq {items : List α} {r : Slice α} (h : s.WellFormed)
    (made : Appended s items r) :
    r.vector.length = max s.vector.length (s.stop + items.length) := by
  have behind := h.stop_le
  rw [← made.vector.length_toList, made.backing]
  simp only [List.length_append, List.length_take, List.length_drop, h.vector.length_toList]
  omega

theorem WellFormed.append_events (h : s.WellFormed) (items : List α) :
    (s.append items).events =
      TrieVector.growths s.vector.length (s.stop + items.length - s.vector.length) := by
  obtain ⟨written, left, v, run, result⟩ := overwrite_eq h.vector h.stop_le items
  obtain ⟨vector, -, length, end_le, rfl, rest⟩ := result
  rcases append_cases s _ run with ⟨reached, made⟩ | ⟨before, made⟩ <;> rw [made]
  · have count : s.stop + (written ++ left).length - s.vector.length = left.length := by
      rw [List.length_append]
      omega
    rw [count, ← length]
    exact vector.append_events left
  · obtain rfl : left = [] := rest.resolve_right fun reached => before (reached.trans length.symm)
    have fits : s.stop + (written ++ []).length - s.vector.length = 0 := by
      rw [List.append_nil]
      omega
    rw [fits]
    rfl

theorem WellFormed.lengthened (h : s.WellFormed) (items : List α) :
    Lengthened s items (s.append items) := by
  have made := h.appended items
  have length := made.length_eq h
  have events := h.append_events items
  refine ⟨made, length, ?_, fun fits => ?_⟩
  · rw [events]
    exact TrieVector.growths_reports _ _
  · have same : (s.append items).value.vector.length = s.vector.length := by omega
    refine ⟨same, made.vector.height_eq h.vector same, ?_⟩
    rw [events, Nat.sub_eq_zero_of_le fits, TrieVector.growths_zero]

/-- Every slice of every history, over the vectors of any other, has its appends written
into its backing vector behind the window, one element or many. -/
theorem histories_append_in_place (vectorSteps : List (TrieVector.VersionStep α))
    (steps : List (VersionStep α)) :
    let vectors := History.run TrieVector.version [] vectorSteps
    let slices := History.run (version vectors) [] steps
    ∀ number s, slices[number]? = some s →
      (∀ items, Lengthened s items (s.append items) ∧
        version vectors slices (.append number items) = some (s.append items).value ∧
        version vectors slices (.extend number items) = some (s.append items).value) ∧
      ∀ a, Lengthened s [a] (s.push a) ∧
        version vectors slices (.push number a) = some (s.push a).value := by
  intro vectors slices number s found
  have backing : ∀ v ∈ vectors, v.WellFormed :=
    History.run_forall TrieVector.version_wellFormed (by simp) vectorSteps
  have wellFormed : s.WellFormed :=
    History.run_forall (version_wellFormed backing) (by simp) steps s (List.mem_of_getElem? found)
  refine ⟨fun items => ⟨wellFormed.lengthened items, ?_, ?_⟩,
    fun a => ⟨wellFormed.lengthened [a], ?_⟩⟩ <;>
  · rw [version, found]
    rfl

/-- Twenty items run past the end of the vector and make its root grow; one item takes the
place of an element, and the vector stays as long. -/
theorem histories_append_in_place_past_end :
    let vector := (TrieVector.ofList (List.range 1050)).value
    let s : Slice Nat := ⟨vector, 1040, 1045⟩
    let vectors := History.run TrieVector.version [] [.ofList (List.range 1050)]
    (History.run (version vectors) [] [.view 0 1040 1045])[0]? = some s ∧
      (Lengthened s (List.range 20) (s.append (List.range 20)) ∧
        (s.append (List.range 20)).value.vector.toList = List.range 1045 ++ List.range 20 ∧
        (s.append (List.range 20)).events = [.rootGrew 1056 2]) ∧
      Lengthened s [7] (s.push 7) ∧
        (s.push 7).value.vector.toList = List.range 1045 ++ [7] ++ [1046, 1047, 1048, 1049] ∧
        (s.push 7).events = [] := by
  intro vector s vectors
  have all : vector.Represents (List.range 1050) := TrieVector.ofList_represents _
  have length : vector.length = 1050 := by rw [all.length, List.length_range]
  have viewed : vector.slice 1040 1045 = .ok s := by
    rw [TrieVector.slice, length]
    rfl
  have slices : History.run (version vectors) [] [.view 0 1040 1045] = [s] := by
    change (vector.slice 1040 1045).toOption.toList = [s]
    rw [viewed]
    rfl
  have found : (History.run (version vectors) [] [.view 0 1040 1045])[0]? = some s := by
    rw [slices]
    rfl
  obtain ⟨many, one⟩ := histories_append_in_place _ _ 0 s found
  obtain ⟨longer, -, -⟩ := many (List.range 20)
  obtain ⟨pushed, -⟩ := one 7
  have heights : TrieVector.grownHeights vector.length 15 = [2] := by
    rw [length]
    decide +kernel
  have past : s.stop + (List.range 20).length - vector.length = 15 := by
    change 1045 + (List.range 20).length - vector.length = 15
    rw [length, List.length_range]
  have inside : s.stop + [7].length ≤ vector.length := by
    change 1046 ≤ vector.length
    omega
  refine ⟨found, ⟨longer, ?_, ?_⟩, pushed, ?_, (pushed.reused inside).2.2⟩
  · rw [longer.backing, all.toList]
    decide +kernel
  · rw [longer.reports.events, past, heights]
    rfl
  · rw [pushed.backing, all.toList]
    decide +kernel

end PersistentCollections.Slice
