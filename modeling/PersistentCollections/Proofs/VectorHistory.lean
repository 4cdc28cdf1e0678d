import PersistentCollections.Proofs.History
import PersistentCollections.Proofs.Iteration

/-! Versions of vectors, and the lists that they stand for. A history makes vectors by
any of the operations from any of the versions it has; the same history on plain lists
says what each of them holds. -/

namespace PersistentCollections.TrieVector

variable {α : Type} {v : TrieVector α} {items : List α}

inductive VersionStep (α : Type) where
  | new
  | ofList (items : List α)
  | append (source : Nat) (items : List α)
  | push (source : Nat) (a : α)
  | extend (source : Nat) (items : List α)
  | set (source index : Nat) (a : α)
  | clone (source : Nat)
  /-- A new vector of what a walk by reference gives out. -/
  | collect (source : Nat)
  /-- A new vector of what a walk leaf by leaf gives out. -/
  | collectLeaves (source : Nat)

/-- The vector that a step makes; one that is refused makes none. -/
def version (versions : List (TrieVector α)) : VersionStep α → Option (TrieVector α)
  | .new => some empty
  | .ofList items => some (ofList items).value
  | .append source items => versions[source]?.bind fun v => some (v.append items).value
  | .push source a => versions[source]?.bind fun v => some (v.push a).value
  | .extend source items => versions[source]?.bind fun v => some (v.append items).value
  | .set source index a => versions[source]?.bind fun v => (v.set index a).toOption
  | .clone source => versions[source]?.bind fun v => some v
  | .collect source => versions[source]?.bind fun v => some (ofList (Walk.rest v.cursor).1).value
  | .collectLeaves source =>
    versions[source]?.bind fun v => some (ofList (Walk.rest v.leafCursor).1).value

def listVersion (versions : List (List α)) : VersionStep α → Option (List α)
  | .new => some []
  | .ofList items => some items
  | .append source items => versions[source]?.bind fun old => some (old ++ items)
  | .push source a => versions[source]?.bind fun old => some (old ++ [a])
  | .extend source items => versions[source]?.bind fun old => some (old ++ items)
  | .set source index a => versions[source]?.bind fun old =>
    if index < old.length then some (old.set index a) else none
  | .clone source | .collect source | .collectLeaves source =>
    versions[source]?.bind fun old => some old

structure Represents (v : TrieVector α) (items : List α) : Prop where
  wellFormed : v.WellFormed
  toList : v.toList = items

/-- What a vector answers is what the list does, at any index. -/
structure Answers (v : TrieVector α) (items : List α) : Prop where
  length : v.length = items.length
  get : ∀ index, v.get index =
    match items[index]? with
    | some a => .ok a
    | none => .error (.indexOutOfBounds index items.length)
  set : ∀ index a, index < items.length →
    ∃ w, v.set index a = .ok w ∧ Represents w (items.set index a)
  set_refused : ∀ index a, items.length ≤ index →
    v.set index a = .error (.indexOutOfBounds index items.length)
  first? : v.first? = items.head?
  last? : v.last? = items.getLast?
  cursor : (Walk.rest v.cursor).1 = items
  leafCursor : (Walk.rest v.leafCursor).1 = items

namespace Represents

theorem length (h : Represents v items) : v.length = items.length := by
  rw [← h.toList, h.wellFormed.length_toList]

theorem append (h : Represents v items) (more : List α) :
    Represents (v.append more).value (items ++ more) := by
  obtain ⟨wellFormed, toList⟩ := h.wellFormed.append_eq more
  exact ⟨wellFormed, by rw [toList, h.toList]⟩

theorem get?_eq (h : Represents v items) (index : Nat) : v.get? index = items[index]? := by
  rw [h.wellFormed.get?_eq, h.toList]

theorem set (h : Represents v items) {index : Nat} (a : α) (inside : index < items.length) :
    ∃ w, v.set index a = .ok w ∧ Represents w (items.set index a) := by
  have within : index < v.length := h.length ▸ inside
  obtain ⟨wellFormed, toList⟩ := h.wellFormed.replace_eq a within
  refine ⟨v.replace index a, ?_, wellFormed, by rw [toList, h.toList]⟩
  rw [TrieVector.set, checkIndex_ok_iff.2 within]
  rfl

theorem set_refused (h : Represents v items) {index : Nat} (a : α)
    (outside : items.length ≤ index) :
    v.set index a = .error (.indexOutOfBounds index items.length) := by
  rw [TrieVector.set, h.length, checkIndex_of_le outside]
  rfl

theorem last?_eq (h : Represents v items) : v.last? = items.getLast? := by
  rw [last?, isEmpty, h.length, h.get?_eq, List.getLast?_eq_getElem?]
  split
  · rename_i none
    rw [List.eq_nil_of_length_eq_zero (beq_iff_eq.1 none)]
    rfl
  · rfl

theorem answers (h : Represents v items) : Answers v items where
  length := h.length
  get index := by
    cases found : items[index]? <;> simp only [TrieVector.get, h.get?_eq, h.length, found]
  set _ a inside := h.set a inside
  set_refused _ a outside := h.set_refused a outside
  first? := by rw [TrieVector.first?, h.get?_eq, List.head?_eq_getElem?]
  last? := h.last?_eq
  cursor := by rw [h.wellFormed.rest_cursor, h.toList]
  leafCursor := by rw [h.wellFormed.rest_leafCursor, h.toList]

end Represents

theorem ofList_represents (items : List α) : Represents (ofList items).value items :=
  Represents.append ⟨empty_wellFormed, rfl⟩ items

theorem version_simulates {versions : List (TrieVector α)} {lists : List (List α)}
    (h : List.Forall₂ Represents versions lists) (step : VersionStep α) :
    Option.Rel Represents (version versions step) (listVersion lists step) := by
  have source (i : Nat) := History.rel_getElem? h i
  cases step with
  | new => exact .some ⟨empty_wellFormed, rfl⟩
  | ofList items => exact .some (ofList_represents items)
  | append i items => exact History.rel_bind (source i) fun _ _ old => .some (old.append items)
  | push i a => exact History.rel_bind (source i) fun _ _ old => .some (old.append [a])
  | extend i items => exact History.rel_bind (source i) fun _ _ old => .some (old.append items)
  | set i index a =>
    refine History.rel_bind (source i) fun v items old => ?_
    by_cases inside : index < items.length
    · obtain ⟨w, run, made⟩ := old.set a inside
      rw [run, if_pos inside]
      exact .some made
    · rw [old.set_refused a (Nat.not_lt.1 inside), if_neg inside]
      exact .none
  | clone i => exact History.rel_bind (source i) fun _ _ old => .some old
  | collect i =>
    refine History.rel_bind (source i) fun v items old => .some ?_
    rw [old.answers.cursor]
    exact ofList_represents items
  | collectLeaves i =>
    refine History.rel_bind (source i) fun v items old => .some ?_
    rw [old.answers.leafCursor]
    exact ofList_represents items

theorem version_wellFormed {versions : List (TrieVector α)} {step : VersionStep α}
    (h : ∀ w ∈ versions, w.WellFormed) (made : version versions step = some v) : v.WellFormed := by
  have represented : List.Forall₂ Represents versions (versions.map TrieVector.toList) :=
    List.forall₂_map_right_iff.2 (List.forall₂_same.2 fun w hw => ⟨h w hw, rfl⟩)
  have both := version_simulates represented step
  rw [made] at both
  generalize listVersion _ step = model at both
  cases both with
  | some result => exact result.wellFormed

/-- Every version of every history is in form, and the check confirms it. -/
theorem history_wellFormed (steps : List (VersionStep α)) :
    ∀ v ∈ History.run version [] steps, v.WellFormed ∧ v.check = true := by
  intro v member
  have wellFormed : v.WellFormed :=
    History.run_forall version_wellFormed (by simp) steps v member
  exact ⟨wellFormed, wellFormed.check⟩

theorem history_wellFormed_branches :
    let first := (ofList (List.range 1057)).value
    let second := (first.append (List.range 40)).value
    let third := (first.push 7).value
    let versions := History.run version []
      [.ofList (List.range 1057), .append 0 (List.range 40), .push 0 7]
    (second ∈ versions ∧ second.WellFormed ∧ second.check = true) ∧
      third ∈ versions ∧ third.WellFormed ∧ third.check = true := by
  intro first second third versions
  have all : versions = [first, second, third] := rfl
  have secondMember : second ∈ versions := by simp [all]
  have thirdMember : third ∈ versions := by simp [all]
  exact ⟨⟨secondMember, history_wellFormed _ second secondMember⟩, thirdMember,
    history_wellFormed _ third thirdMember⟩

/-- Every version answers as the list does that the same history makes. -/
theorem history_refines_lists (steps : List (VersionStep α)) :
    List.Forall₂ (fun v items => Represents v items ∧ Answers v items)
      (History.run version [] steps) (History.run listVersion [] steps) := by
  have related : List.Forall₂ Represents (History.run version [] steps)
      (History.run listVersion [] steps) :=
    History.run_simulates (fun _ _ step h => version_simulates h step) .nil steps
  exact related.imp fun _ _ h => ⟨h, h.answers⟩

end PersistentCollections.TrieVector
