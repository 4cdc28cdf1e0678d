import Mathlib.Data.List.Sort
import Mathlib.Order.Bounds.Basic
import PersistentCollections.Proofs.VersionNames
import PersistentCollections.Proofs.VectorGrowth

/-! What the appends to a vector report. Its length and the number of the items decide which
heights the root takes on: each one whose length is passed, once, in increasing order. Into
which batches the items are cut, there or in earlier appends, makes no difference, and the
height that a vector has is the least that its length allows. -/

namespace PersistentCollections

theorem tally_of_counter {events : List Event} {name : String} (some : events ≠ [])
    (one : ∀ e ∈ events, e.counter = name) : tally events = [(name, events.length)] := by
  have names : events.map Event.counter = List.replicate events.length name := by
    simpa [List.eq_replicate_iff] using one
  obtain ⟨first, rest, rfl⟩ := List.exists_cons_of_ne_nil some
  simp only [tally, names, List.length_cons, List.replicate_succ, List.eraseDups_cons]
  simp

namespace TrieVector

variable {α : Type} {v : TrieVector α}

/-- The heights that a root takes on while a vector of this length gets so many elements. -/
def grownHeights (length count : Nat) : List Nat :=
  (List.range (length + count)).filter fun h =>
    2 ≤ h ∧ length ≤ width ^ h + width ∧ width ^ h + width < length + count

theorem mem_grownHeights (length count h : Nat) : h ∈ grownHeights length count ↔
    2 ≤ h ∧ length ≤ width ^ h + width ∧ width ^ h + width < length + count := by
  have small : h < width ^ h := Nat.lt_pow_self (by decide)
  simp only [grownHeights, List.mem_filter, List.mem_range, decide_eq_true_eq]
  omega

theorem grownHeights_increasing (length count : Nat) :
    (grownHeights length count).Pairwise (· < ·) :=
  List.Pairwise.filter _ List.pairwise_lt_range

theorem eq_grownHeights {length count : Nat} {heights : List Nat}
    (increasing : heights.Pairwise (· < ·))
    (mem : ∀ h, h ∈ heights ↔ h ∈ grownHeights length count) :
    heights = grownHeights length count :=
  increasing.eq_of_mem_iff (grownHeights_increasing length count) mem

theorem grownHeights_succ_of_pow {length count height : Nat} (high : 2 ≤ height)
    (here : length + count = width ^ height + width) :
    grownHeights length (count + 1) = grownHeights length count ++ [height] := by
  have lower (h : Nat) : width ^ h < width ^ height ↔ h < height :=
    Nat.pow_lt_pow_iff_right (by decide)
  have same (h : Nat) : width ^ h = width ^ height ↔ h = height :=
    Nat.pow_right_inj (by decide)
  symm
  apply eq_grownHeights
  · refine List.pairwise_append.2 ⟨grownHeights_increasing _ _, by simp, ?_⟩
    intro h member _ last
    have passed := ((mem_grownHeights _ _ h).1 member).2.2
    rw [List.mem_singleton.1 last, ← lower]
    omega
  · intro h
    have equal := same h
    simp only [List.mem_append, List.mem_singleton, mem_grownHeights]
    omega

theorem grownHeights_succ_of_ne {length count : Nat}
    (other : ∀ h, 2 ≤ h → length + count ≠ width ^ h + width) :
    grownHeights length (count + 1) = grownHeights length count := by
  symm
  apply eq_grownHeights (grownHeights_increasing _ _)
  intro h
  have ne := other h
  simp only [mem_grownHeights]
  omega

theorem growths_eq (length count : Nat) : growths length count =
    (grownHeights length count).map fun h => .rootGrew (width ^ h + width) h := by
  induction count with
  | zero =>
    have none : grownHeights length 0 = [] := by
      simp only [List.eq_nil_iff_forall_not_mem, mem_grownHeights]
      omega
    rw [none]
    rfl
  | succ count ih =>
    have one : growths (length + count) 1 = rootGrowth (length + count) := by simp [growths]
    rw [growths_add, one, ih]
    by_cases grows : ∃ h, 2 ≤ h ∧ length + count = width ^ h + width
    · obtain ⟨h, high, here⟩ := grows
      rw [grownHeights_succ_of_pow high here, List.map_append, here, rootGrowth_pow high]
      rfl
    · have other : ∀ h, 2 ≤ h → length + count ≠ width ^ h + width :=
        fun h high here => grows ⟨h, high, here⟩
      rw [grownHeights_succ_of_ne other, rootGrowth_eq_nil other, List.append_nil]

/-- A vector of this length reports the heights that its root takes on, each with the length
at which it does, and a counter goes along. -/
structure Reports (length count : Nat) (reported : List Event) : Prop where
  heights : ∀ h : Nat, h ∈ grownHeights length count ↔
    2 ≤ h ∧ length ≤ width ^ h + width ∧ width ^ h + width < length + count
  increasing : (grownHeights length count).Pairwise (· < ·)
  events : reported = (grownHeights length count).map fun h => .rootGrew (width ^ h + width) h
  messages : reported.map Event.message = (grownHeights length count).map fun h =>
    s!"vector of length {width ^ h + width} grew to height {h}"
  tally : tally reported = if reported = [] then []
    else [("peds::vector::root_overflow", (grownHeights length count).length)]

theorem growths_reports (length count : Nat) : Reports length count (growths length count) where
  heights := mem_grownHeights length count
  increasing := grownHeights_increasing length count
  events := growths_eq length count
  messages := by
    rw [growths_eq, List.map_map]
    rfl
  tally := by
    have counter : ∀ e ∈ growths length count, e.counter = "peds::vector::root_overflow" := by
      simp [growths_eq, Event.counter]
    have number : (growths length count).length = (grownHeights length count).length := by
      simp [growths_eq]
    split
    · rename_i none
      rw [none]
      rfl
    · rename_i some
      rw [tally_of_counter some counter, number]

theorem WellFormed.height_least (h : v.WellFormed) :
    IsLeast {height | 1 ≤ height ∧ v.tailOffset / width ≤ width ^ height} v.height := by
  obtain ⟨intact, filled⟩ := wellFormed_iff.1 h
  have leaves : v.tailOffset / width = v.leaves.length := by
    rw [intact.tailOffset_eq filled, Nat.mul_div_cancel_left _ (by decide)]
  rw [leaves]
  refine ⟨⟨h.height_pos, leafCapacity_eq_pow v.height ▸ h.root.length_leaves_le⟩, ?_⟩
  rintro height ⟨positive, holds⟩
  rcases intact.minimal with one | needed
  · omega
  · rw [leafCapacity_eq_pow] at needed
    have below : v.height - 1 < height :=
      (Nat.pow_lt_pow_iff_right (by decide)).1 (Nat.lt_of_lt_of_le needed holds)
    omega

theorem WellFormed.height_eq {w : TrieVector α} (hv : v.WellFormed) (hw : w.WellFormed)
    (same : v.length = w.length) : v.height = w.height := by
  have offset : v.tailOffset = w.tailOffset := by rw [tailOffset, tailOffset, same]
  exact hv.height_least.unique (offset ▸ hw.height_least)

/-! ### Batches -/

theorem WellFormed.append_bind (h : v.WellFormed) (xs ys : List α) :
    (v.append xs).bind (append · ys) = v.append (xs ++ ys) := by
  have events : ((v.append xs).bind (append · ys)).events = (v.append (xs ++ ys)).events := by
    rw [Logged.bind_events, h.append_events, (h.append_eq xs).1.append_events, h.append_events,
      h.length_append, List.length_append, growths_add]
  exact congrArg₂ Logged.mk (h.append_append xs ys).symm events

end TrieVector

/-! ### Versions -/

theorem Stamp.afterAppend_events (s : Stamp) (before after : TrieVector α) (l : Ledger) :
    (s.afterAppend before after l).2.events = l.events := by
  rw [afterAppend_run]
  split
  · rfl
  · split <;> rfl

theorem Stamp.afterReplace_events (s : Stamp) (v : TrieVector α) (index : Nat) (l : Ledger) :
    (s.afterReplace v index l).2.events = l.events := by
  rw [afterReplace_run]
  split <;> rfl

namespace VectorVersion

variable {α : Type} {x : VectorVersion α}

theorem append_events (x : VectorVersion α) (items : List α) (l : Ledger) :
    (x.append items l).2.events = l.events ++ (x.value.append items).events :=
  x.stamp.afterAppend_events x.value (x.value.append items).value _

theorem append_batches (h : x.value.WellFormed) (batches : List (List α)) (l : Ledger) :
    (batches.foldlM append x l).1.value = (x.value.append batches.flatten).value ∧
      (batches.foldlM append x l).2.events =
        l.events ++ (x.value.append batches.flatten).events := by
  induction batches generalizing x l with
  | nil =>
    rw [List.flatten_nil, TrieVector.append_nil, List.append_nil]
    exact ⟨rfl, rfl⟩
  | cons first rest ih =>
    have next : (x.append first l).1.value = (x.value.append first).value := rfl
    have wellFormed : (x.append first l).1.value.WellFormed := (h.append_eq first).1
    obtain ⟨value, events⟩ := ih wellFormed (x.append first l).2
    rw [next] at value events
    rw [List.flatten_cons, ← h.append_bind, Logged.bind_value, Logged.bind_events]
    refine ⟨value, events.trans ?_⟩
    rw [append_events, List.append_assoc]

theorem set_events {index : Nat} {a : α} {made : Recording (VectorVersion α)}
    (h : x.set index a = .ok made) (l : Ledger) : (made l).2.events = l.events := by
  obtain ⟨-, rfl⟩ := set_eq h
  exact x.stamp.afterReplace_events x.value index l

end VectorVersion

namespace TrieVector

variable {α : Type} {v : TrieVector α}

/-- When the root of a vector grows, and how high it is. The events are those that the
vector reports, and those that are taken down under any names. -/
structure GrowsByLength (v : TrieVector α) : Prop where
  append : ∀ items, Reports v.length items.length (v.append items).events
  batches : ∀ (batches : List (List α)) stamp l,
    (batches.foldlM VectorVersion.append ⟨v, stamp⟩ l).1.value = (v.append batches.flatten).value ∧
      (batches.foldlM VectorVersion.append ⟨v, stamp⟩ l).2.events =
        l.events ++ (v.append batches.flatten).events
  set : ∀ index a stamp made, VectorVersion.set ⟨v, stamp⟩ index a = .ok made →
    ∀ l, (made l).2.events = l.events
  height : IsLeast {height | 1 ≤ height ∧ v.tailOffset / width ≤ width ^ height} v.height

/-- Every version of every history reports what its length says. -/
theorem history_grows_by_length (steps : List (VersionStep α)) :
    ∀ v ∈ History.run version [] steps, v.GrowsByLength := by
  intro v member
  have wellFormed : v.WellFormed :=
    History.run_forall version_wellFormed (by simp) steps v member
  refine ⟨?_, ?_, ?_, wellFormed.height_least⟩
  · intro items
    rw [wellFormed.append_events]
    exact growths_reports v.length items.length
  · intro batches stamp l
    exact VectorVersion.append_batches (x := ⟨v, stamp⟩) wellFormed batches l
  · intro index a stamp made accepted l
    exact VectorVersion.set_events accepted l

/-- The tree and the tail are full, so the next element needs a new root. -/
theorem history_grows_by_length_full :
    let v := (ofList (List.range 1056)).value
    (v ∈ History.run version [] [.ofList (List.range 1056)] ∧ v.GrowsByLength) ∧
      (v.push 7).events.map Event.message = ["vector of length 1056 grew to height 2"] ∧
      tally (v.push 7).events = [("peds::vector::root_overflow", 1)] := by
  intro v
  have member : v ∈ History.run version [] [.ofList (List.range 1056)] := List.mem_singleton.2 rfl
  have grows : v.GrowsByLength := history_grows_by_length _ v member
  have length : v.length = 1056 := by rw [(ofList_represents _).length, List.length_range]
  have one : grownHeights v.length 1 = [2] := by
    rw [length]
    decide +kernel
  have events : (v.push 7).events = [.rootGrew 1056 2] := by
    rw [push, (grows.append [7]).events, List.length_singleton, one]
    rfl
  rw [events]
  exact ⟨⟨member, grows⟩, rfl, rfl⟩

end TrieVector

end PersistentCollections
