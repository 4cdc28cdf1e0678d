import Mathlib.Algebra.Group.Nat.Defs
import Mathlib.Data.Nat.Log
import PersistentCollections.Proofs.VectorShape

/-! When the root of a vector grows. The length alone decides it: the tree is full at
height `h - 1` and the tail behind it as well when there are `width ^ h + width` elements,
and the next element makes the height `h`. So what an append reports depends on the
length before it and on the number of items, not on the items or on earlier batches. -/

namespace PersistentCollections

theorem leafCapacity_eq_pow (height : Nat) : leafCapacity height = width ^ height := by
  induction height with
  | zero => rfl
  | succ height ih => rw [leafCapacity, ih, Nat.pow_succ, Nat.mul_comm]

theorem leafCapacity_eq_two_pow (height : Nat) : leafCapacity height = 2 ^ (5 * height) := by
  rw [leafCapacity_eq_pow, Nat.pow_mul]
  rfl

namespace TrieVector

variable {α : Type} {v : TrieVector α}

/-- What a vector of this length reports when an element comes behind the others. -/
def rootGrowth (length : Nat) : List Event :=
  let height := Nat.log width (length - width)
  if 2 ≤ height ∧ length = width ^ height + width then [.rootGrew length height] else []

def growths (length count : Nat) : List Event := (List.range' length count).flatMap rootGrowth

theorem rootGrowth_pow {height : Nat} (h : 2 ≤ height) :
    rootGrowth (width ^ height + width) = [.rootGrew (width ^ height + width) height] := by
  have log : Nat.log width (width ^ height) = height := Nat.log_pow (by decide) height
  simp [rootGrowth, log, h]

theorem rootGrowth_eq_nil {length : Nat}
    (other : ∀ height, 2 ≤ height → length ≠ width ^ height + width) : rootGrowth length = [] :=
  if_neg fun h => other _ h.1 h.2

theorem rootGrowth_eq_nil_of_mod {length : Nat} (h : length % width ≠ 0) :
    rootGrowth length = [] := by
  apply rootGrowth_eq_nil
  rintro height high rfl
  obtain ⟨k, rfl⟩ := Nat.exists_eq_add_of_le high
  simp [Nat.pow_add, Nat.pow_succ, Nat.mul_assoc] at h

theorem rootGrew_of_mem_growths {length count : Nat} {e : Event}
    (member : e ∈ growths length count) : ∃ length height, e = .rootGrew length height := by
  obtain ⟨i, -, here⟩ := List.mem_flatMap.1 member
  simp only [rootGrowth] at here
  split at here
  · exact ⟨_, _, List.mem_singleton.1 here⟩
  · cases here

@[simp] theorem growths_zero (length : Nat) : growths length 0 = [] := rfl

theorem growths_add (length first second : Nat) :
    growths length (first + second) = growths length first ++ growths (length + first) second := by
  rw [growths, ← List.range'_append_1, List.flatMap_append]
  rfl

theorem growths_of_fits {length before count : Nat} (place : length % width = before)
    (fits : before + (count + 1) ≤ width) : growths length (count + 1) = rootGrowth length := by
  have none : (List.range' (length + 1) count).flatMap rootGrowth = [] := by
    apply List.flatMap_eq_nil_iff.2
    intro i member
    apply rootGrowth_eq_nil_of_mod
    have bounds := List.mem_range'_1.1 member
    simp only [width] at *
    omega
  rw [growths, List.range'_succ, List.flatMap_cons, none, List.append_nil]

theorem flushTailChecked_silent {r : Logged (TrieVector α)}
    (room : ¬leafCapacity v.height < v.length / width) (run : v.flushTailChecked = .ok r) :
    r.events = [] := by
  simp only [flushTailChecked, room, if_false] at run
  split at run
  · rename_i children above _ _
    cases added : Node.addLeaf above children (v.length - 1) (.leaf v.tail) with
    | error e => simp [added, bind, Except.bind] at run
    | ok longer =>
      simp only [added, bind, Except.bind, pure, Except.pure] at run
      cases run
      rfl
  · cases run
  · cases run

namespace Intact

theorem rootGrowth_of_full (h : v.Intact) (tail : v.tail.length = width)
    (tree : v.leaves.length = width ^ v.height) :
    rootGrowth v.length = [.rootGrew v.length (v.height + 1)] := by
  have whole : v.length = width ^ (v.height + 1) + width := by
    rw [h.length_eq, tail, tree, Nat.pow_succ']
  rw [whole]
  exact rootGrowth_pow (Nat.succ_le_succ h.height_pos)

theorem rootGrowth_of_leafRoom (h : v.Intact) (tail : v.tail.length = width)
    (room : v.leaves.length < width ^ v.height) : rootGrowth v.length = [] := by
  apply rootGrowth_eq_nil
  intro height high here
  obtain ⟨below, rfl⟩ := Nat.exists_eq_add_of_le' high
  have product : width * v.leaves.length = width * width ^ (below + 1) := by
    rw [h.length_eq, tail] at here
    rw [← Nat.pow_succ']
    exact Nat.add_right_cancel here
  have leaves : v.leaves.length = width ^ (below + 1) :=
    Nat.eq_of_mul_eq_mul_left (by decide) product
  rw [leaves] at room
  have lower : below + 1 < v.height := (Nat.pow_lt_pow_iff_right (by decide)).1 room
  have higher : v.height = 1 ∨ v.height - 1 < below + 1 := by
    apply h.minimal.imp_right
    intro needed
    rw [leafCapacity_eq_pow, leaves] at needed
    exact (Nat.pow_lt_pow_iff_right (by decide)).1 needed
  omega

theorem flush_events {r : Logged (TrieVector α)} (h : v.Intact)
    (full : v.tail.length = width) (run : v.flushTailChecked = .ok r) :
    r.events = rootGrowth v.length := by
  have total : v.length = width * v.leaves.length + width := full ▸ h.length_eq
  have most : v.leaves.length ≤ width ^ v.height :=
    leafCapacity_eq_pow v.height ▸ h.root.length_leaves_le
  have quotient : v.length / width = v.leaves.length + 1 := by
    simp only [width] at *
    omega
  have asked : leafCapacity v.height < v.length / width ↔ v.leaves.length = width ^ v.height := by
    rw [leafCapacity_eq_pow, quotient]
    omega
  by_cases tree : v.leaves.length = width ^ v.height
  · simp only [flushTailChecked, asked.2 tree, if_true] at run
    cases run
    exact (h.rootGrowth_of_full full tree).symm
  · rw [flushTailChecked_silent (mt asked.1 tree) run,
      h.rootGrowth_of_leafRoom full (Nat.lt_of_le_of_ne most tree)]

end Intact

theorem WellFormed.rootGrowth_of_room (h : v.WellFormed) (room : v.tail.length < width) :
    rootGrowth v.length = [] := by
  obtain ⟨intact, filled⟩ := wellFormed_iff.1 h
  have total := intact.length_eq
  by_cases zero : v.length = 0
  · simp [zero, rootGrowth]
  · have some : v.tail.length ≠ 0 := fun none => zero (filled (List.eq_nil_of_length_eq_zero none))
    apply rootGrowth_eq_nil_of_mod
    simp only [width] at *
    omega

theorem WellFormed.hasRoom_events {r : Logged (TrieVector α)} (h : v.WellFormed)
    (start : v.HasRoom r) : r.events = rootGrowth v.length := by
  rcases start with ⟨full, run⟩ | ⟨room, rfl⟩
  · exact (wellFormed_iff.1 h).1.flush_events full run
  · exact (h.rootGrowth_of_room room).symm

theorem WellFormed.appendChecked_events {r : Logged (TrieVector α)} {events : List Event}
    {items : List α} (h : v.WellFormed) (run : v.appendChecked events items = .ok r) :
    r.events = events ++ growths v.length items.length := by
  -- Only the start of a turn can find the tail full.
  refine h.induction_on_turns items (P := fun v items => ∀ events,
    v.appendChecked events items = .ok r → r.events = events ++ growths v.length items.length)
    ?_ ?_ events run
  · intro v _ events run
    rw [TrieVector.appendChecked] at run
    cases run
    exact (List.append_nil events).symm
  · intro v start a rest k h hasRoom intact room same space later events run
    have silent := h.hasRoom_events hasRoom
    have length : start.value.length = v.length := by
      rw [← intact.length_toList, same, h.length_toList]
    have place : v.length % width = start.value.tail.length := by
      rw [← length, intact.length_eq, Nat.mul_add_mod, Nat.mod_eq_of_lt room]
    have fits : start.value.tail.length + ((rest.take k).length + 1) ≤ width := by
      rw [List.length_take]
      omega
    have longer : (start.value.addToTail (a :: rest.take k)).length =
        v.length + ((rest.take k).length + 1) := by
      rw [← length]
      rfl
    have parts : (a :: rest).length = (rest.take k).length + 1 + (rest.drop k).length := by
      rw [List.length_cons, List.length_take, List.length_drop]
      omega
    rw [appendChecked_cons hasRoom, space] at run
    rw [later _ run, silent, List.append_assoc, longer, parts, growths_add,
      growths_of_fits place fits]

theorem WellFormed.append_events (h : v.WellFormed) (items : List α) :
    (v.append items).events = growths v.length items.length := by
  obtain ⟨r, run, _, _⟩ := h.appendChecked [] items
  rw [append, run]
  exact h.appendChecked_events run

theorem ofList_events (items : List α) : (ofList items).events = growths 0 items.length :=
  empty_wellFormed.append_events items

end TrieVector

end PersistentCollections
