import PersistentCollections.Proofs.SliceShape
import PersistentCollections.Proofs.VectorHistory

/-! Versions of slices, and the lists that they stand for. A history views any version of
a vector, and then cuts, changes and lengthens any of the slices that it has. The same
history on plain lists knows only what is in the windows, so what a backing vector holds
elsewhere decides no answer. -/

namespace PersistentCollections.Slice

variable {α : Type} {s : Slice α} {items : List α}

inductive VersionStep (α : Type) where
  | empty
  | ofList (items : List α)
  /-- All of a vector. -/
  | ofVector (vector : Nat)
  /-- The part of a vector between two positions. -/
  | view (vector start stop : Nat)
  | slice (source start stop : Nat)
  | set (source index : Nat) (a : α)
  | push (source : Nat) (a : α)
  | append (source : Nat) (items : List α)
  | extend (source : Nat) (items : List α)
  | clone (source : Nat)

/-- The slice that a step makes; one that is refused makes none. -/
def version (vectors : List (TrieVector α)) (versions : List (Slice α)) :
    VersionStep α → Option (Slice α)
  | .empty => some empty
  | .ofList items => some (ofList items).value
  | .ofVector vector => vectors[vector]?.bind fun v => some (ofVector v)
  | .view vector start stop => vectors[vector]?.bind fun v => (v.slice start stop).toOption
  | .slice source start stop => versions[source]?.bind fun s => (s.slice start stop).toOption
  | .set source index a => versions[source]?.bind fun s => (s.set index a).toOption
  | .push source a => versions[source]?.bind fun s => some (s.push a).value
  | .append source items => versions[source]?.bind fun s => some (s.append items).value
  | .extend source items => versions[source]?.bind fun s => some (s.append items).value
  | .clone source => versions[source]?.bind fun s => some s

/-- The elements between two positions, if the list has both. -/
def sublist? (old : List α) (start stop : Nat) : Option (List α) :=
  if start ≤ stop ∧ stop ≤ old.length then some ((old.drop start).take (stop - start)) else none

def listVersion (vectors versions : List (List α)) : VersionStep α → Option (List α)
  | .empty => some []
  | .ofList items => some items
  | .ofVector vector => vectors[vector]?.bind fun old => some old
  | .view vector start stop => vectors[vector]?.bind fun old => sublist? old start stop
  | .slice source start stop => versions[source]?.bind fun old => sublist? old start stop
  | .set source index a => versions[source]?.bind fun old =>
    if index < old.length then some (old.set index a) else none
  | .push source a => versions[source]?.bind fun old => some (old ++ [a])
  | .append source items => versions[source]?.bind fun old => some (old ++ items)
  | .extend source items => versions[source]?.bind fun old => some (old ++ items)
  | .clone source => versions[source]?.bind fun old => some old

structure Represents (s : Slice α) (items : List α) : Prop where
  wellFormed : s.WellFormed
  contents : s.contents = items

/-- What a slice answers is what the list does, at any positions. -/
structure Answers (s : Slice α) (items : List α) : Prop where
  start_le : s.start ≤ s.stop
  stop_le : s.stop ≤ s.vector.length
  length : s.length = items.length
  get : ∀ index, s.get index =
    match items[index]? with
    | some a => .ok a
    | none => .error (.indexOutOfBounds index items.length)
  set : ∀ index a, index < items.length →
    ∃ w, s.set index a = .ok w ∧ Represents w (items.set index a)
  set_refused : ∀ index a, items.length ≤ index →
    s.set index a = .error (.indexOutOfBounds index items.length)
  slice : ∀ start stop, start ≤ stop → stop ≤ items.length →
    ∃ w, s.slice start stop = .ok w ∧ Represents w ((items.drop start).take (stop - start))
  slice_refused : ∀ start stop, ¬(start ≤ stop ∧ stop ≤ items.length) →
    s.slice start stop = .error (.invalidRange start stop items.length)
  toList : s.toList = items
  cursor : Walk.Gives s.cursor items
  leafCursor : Walk.Gives s.leafCursor items

namespace Represents

theorem length (h : Represents s items) : s.length = items.length := by
  rw [← h.contents, h.wellFormed.length_contents]

theorem append (h : Represents s items) (more : List α) :
    Represents (s.append more).value (items ++ more) := by
  obtain ⟨wellFormed, contents⟩ := h.wellFormed.append_eq more
  exact ⟨wellFormed, by rw [contents, h.contents]⟩

theorem get_eq (h : Represents s items) (index : Nat) : s.get index =
    match items[index]? with
    | some a => .ok a
    | none => .error (.indexOutOfBounds index items.length) := by
  by_cases inside : index < s.length
  · have bound : index < items.length := h.length ▸ inside
    have found : items[index]? = some items[index] := List.getElem?_eq_getElem bound
    have read := h.wellFormed.get?_eq inside
    rw [h.contents, found] at read
    rw [Slice.get, checkIndex_ok_iff.2 inside, found]
    change s.vector.get (s.start + index) = _
    rw [TrieVector.get, read]
  · rw [Slice.get, checkIndex_of_le (Nat.not_lt.1 inside), h.length,
      List.getElem?_eq_none (h.length ▸ Nat.not_lt.1 inside)]
    rfl

theorem set (h : Represents s items) {index : Nat} (a : α) (inside : index < items.length) :
    ∃ w, s.set index a = .ok w ∧ Represents w (items.set index a) := by
  have within : index < s.length := h.length ▸ inside
  obtain ⟨wellFormed, contents⟩ := h.wellFormed.set_eq a within
  refine ⟨_, ?_, wellFormed, by rw [contents, h.contents]⟩
  rw [Slice.set, checkIndex_ok_iff.2 within]
  rfl

theorem set_refused (h : Represents s items) {index : Nat} (a : α)
    (outside : items.length ≤ index) :
    s.set index a = .error (.indexOutOfBounds index items.length) := by
  rw [Slice.set, h.length, checkIndex_of_le outside]
  rfl

theorem slice (h : Represents s items) {start stop : Nat} (ordered : start ≤ stop)
    (within : stop ≤ items.length) :
    ∃ w, s.slice start stop = .ok w ∧ Represents w ((items.drop start).take (stop - start)) := by
  have inside : stop ≤ s.length := h.length ▸ within
  obtain ⟨wellFormed, contents⟩ := h.wellFormed.slice_eq ordered inside
  refine ⟨_, ?_, wellFormed, by rw [contents, h.contents]⟩
  rw [Slice.slice, checkRange_ok_iff.2 ⟨ordered, inside⟩]
  rfl

theorem slice_refused (h : Represents s items) {start stop : Nat}
    (outside : ¬(start ≤ stop ∧ stop ≤ items.length)) :
    s.slice start stop = .error (.invalidRange start stop items.length) := by
  rw [Slice.slice, h.length, checkRange_of_not outside]
  rfl

theorem answers (h : Represents s items) : Answers s items where
  start_le := h.wellFormed.start_le
  stop_le := h.wellFormed.stop_le
  length := h.length
  get := h.get_eq
  set _ a inside := h.set a inside
  set_refused _ a outside := h.set_refused a outside
  slice _ _ ordered within := h.slice ordered within
  slice_refused _ _ outside := h.slice_refused outside
  toList := h.wellFormed.toList_eq.trans h.contents
  cursor := h.contents ▸ h.wellFormed.cursor_gives
  leafCursor := h.contents ▸ h.wellFormed.leafCursor_gives

theorem sublist (h : Represents s items) (start stop : Nat) :
    Option.Rel Represents (s.slice start stop).toOption (sublist? items start stop) := by
  rw [sublist?]
  by_cases inside : start ≤ stop ∧ stop ≤ items.length
  · obtain ⟨w, run, made⟩ := h.slice inside.1 inside.2
    rw [run, if_pos inside]
    exact .some made
  · rw [h.slice_refused inside, if_neg inside]
    exact .none

end Represents

theorem ofVector_represents {v : TrieVector α} (h : v.Represents items) :
    Represents (ofVector v) items := by
  refine ⟨⟨h.wellFormed, Nat.zero_le _, Nat.le_refl _⟩, ?_⟩
  change (v.toList.drop 0).take (v.length - 0) = items
  rw [h.length, h.toList, window_all]

theorem view_eq (v : TrieVector α) (start stop : Nat) :
    v.slice start stop = (ofVector v).slice start stop := by
  simp only [TrieVector.slice, Slice.slice, Slice.length, ofVector, Nat.sub_zero, Nat.zero_add]

theorem version_simulates {vectors : List (TrieVector α)} {vectorLists : List (List α)}
    {versions : List (Slice α)} {lists : List (List α)}
    (backing : List.Forall₂ TrieVector.Represents vectors vectorLists)
    (h : List.Forall₂ Represents versions lists) (step : VersionStep α) :
    Option.Rel Represents (version vectors versions step) (listVersion vectorLists lists step) := by
  have vector (i : Nat) := History.rel_getElem? backing i
  have source (i : Nat) := History.rel_getElem? h i
  cases step with
  | empty => exact .some (ofVector_represents ⟨TrieVector.empty_wellFormed, rfl⟩)
  | ofList items => exact .some (ofVector_represents (TrieVector.ofList_represents items))
  | ofVector i => exact History.rel_bind (vector i) fun _ _ v => .some (ofVector_represents v)
  | view i start stop =>
    refine History.rel_bind (vector i) fun v _ whole => ?_
    rw [view_eq]
    exact (ofVector_represents whole).sublist start stop
  | slice i start stop => exact History.rel_bind (source i) fun _ _ old => old.sublist start stop
  | set i index a =>
    refine History.rel_bind (source i) fun s items old => ?_
    by_cases inside : index < items.length
    · obtain ⟨w, run, made⟩ := old.set a inside
      rw [run, if_pos inside]
      exact .some made
    · rw [old.set_refused a (Nat.not_lt.1 inside), if_neg inside]
      exact .none
  | push i a => exact History.rel_bind (source i) fun _ _ old => .some (old.append [a])
  | append i items => exact History.rel_bind (source i) fun _ _ old => .some (old.append items)
  | extend i items => exact History.rel_bind (source i) fun _ _ old => .some (old.append items)
  | clone i => exact History.rel_bind (source i) fun _ _ old => .some old

theorem version_wellFormed {vectors : List (TrieVector α)} {versions : List (Slice α)}
    {step : VersionStep α} (backing : ∀ v ∈ vectors, v.WellFormed)
    (h : ∀ w ∈ versions, w.WellFormed) (made : version vectors versions step = some s) :
    s.WellFormed := by
  have vectorsRepresented : List.Forall₂ TrieVector.Represents vectors
      (vectors.map TrieVector.toList) :=
    List.forall₂_map_right_iff.2 (List.forall₂_same.2 fun v hv => ⟨backing v hv, rfl⟩)
  have represented : List.Forall₂ Represents versions (versions.map contents) :=
    List.forall₂_map_right_iff.2 (List.forall₂_same.2 fun w hw => ⟨h w hw, rfl⟩)
  have both := version_simulates vectorsRepresented represented step
  rw [made] at both
  generalize listVersion _ _ step = model at both
  cases both with
  | some result => exact result.wellFormed

theorem histories_represent (vectorSteps : List (TrieVector.VersionStep α))
    (steps : List (VersionStep α)) :
    let vectors := History.run TrieVector.version [] vectorSteps
    let lists := History.run TrieVector.listVersion [] vectorSteps
    List.Forall₂ TrieVector.Represents vectors lists ∧
      List.Forall₂ Represents (History.run (version vectors) [] steps)
        (History.run (listVersion lists) [] steps) := by
  intro vectors lists
  have backing : List.Forall₂ TrieVector.Represents vectors lists :=
    History.run_simulates (fun _ _ step h => TrieVector.version_simulates h step) .nil vectorSteps
  exact ⟨backing,
    History.run_simulates (fun _ _ step h => version_simulates backing h step) .nil steps⟩

/-- Over the vectors of any history, every slice answers as the list does that the same
history makes of the lists which those vectors stand for. -/
theorem history_refines_sublists (vectorSteps : List (TrieVector.VersionStep α))
    (steps : List (VersionStep α)) :
    List.Forall₂ (fun s items => Represents s items ∧ Answers s items)
      (History.run (version (History.run TrieVector.version [] vectorSteps)) [] steps)
      (History.run (listVersion (History.run TrieVector.listVersion [] vectorSteps)) [] steps) := by
  have backing : List.Forall₂ TrieVector.Represents (History.run TrieVector.version [] vectorSteps)
      (History.run TrieVector.listVersion [] vectorSteps) :=
    History.run_simulates (fun _ _ step h => TrieVector.version_simulates h step) .nil vectorSteps
  have related := History.run_simulates
    (fun _ _ step h => version_simulates backing h step) .nil steps
  exact related.imp fun _ _ h => ⟨h, h.answers⟩

end PersistentCollections.Slice
