import PersistentCollections.TrieVector
import PersistentCollections.Proofs.TreeShape

/-! The representation of a vector: a left-packed tree of least height and a tail that
is empty only if the vector is. Appending gives up the condition on the tail between
moving a full tail into the tree and adding the next element; `Intact` is what holds
also then. On a vector in this form no operation breaches. -/

namespace PersistentCollections.TrieVector

open Node (PackedRoot LeftPacked)

variable {α : Type} {v : TrieVector α}

/-- The leaves of the tree, from left to right. The tail is none of them. -/
def leaves (v : TrieVector α) : List (List α) := v.root.leaves v.height

/-- What holds of a vector at every moment of an operation. -/
structure Intact (v : TrieVector α) : Prop where
  height_pos : 0 < v.height
  root : PackedRoot v.height v.root
  minimal : v.height = 1 ∨ leafCapacity (v.height - 1) < v.leaves.length
  tail_le : v.tail.length ≤ width
  length_eq : v.length = width * v.leaves.length + v.tail.length

/-- What holds of a vector before and after every operation. -/
structure WellFormed (v : TrieVector α) : Prop where
  height_pos : 0 < v.height
  tail_length : v.tail.length = v.length - v.tailOffset
  tail_le : v.tail.length ≤ width
  tail_nonempty : v.tail = [] → v.length = 0
  root : PackedRoot v.height v.root
  root_length : (v.root.toList v.height).length = v.tailOffset
  minimal : v.height = 1 ∨ ∃ first second rest, v.root = .interior (first :: second :: rest)

theorem toList_eq_leaves (v : TrieVector α) : v.toList = v.leaves.flatten ++ v.tail := by
  rw [toList, Node.toList_eq_leaves, leaves]

theorem tailOffset_le (v : TrieVector α) : v.tailOffset ≤ v.length := by
  unfold tailOffset
  split
  · exact Nat.zero_le _
  · simp only [width]
    omega

namespace Intact

theorem length_of_mem_leaves (h : v.Intact) : ∀ items ∈ v.leaves, items.length = width :=
  fun _ hi => h.root.length_of_mem_leaves hi

theorem length_flatten_leaves (h : v.Intact) : v.leaves.flatten.length = width * v.leaves.length :=
  Blocks.length_flatten h.length_of_mem_leaves

@[simp] theorem length_toList (h : v.Intact) : v.toList.length = v.length := by
  rw [toList_eq_leaves, List.length_append, h.length_flatten_leaves, ← h.length_eq]

theorem tailOffset_eq (h : v.Intact) (filled : v.tail = [] → v.length = 0) :
    v.tailOffset = width * v.leaves.length := by
  have most := h.tail_le
  have total := h.length_eq
  have empty : v.tail.length = 0 → v.length = 0 := fun none =>
    filled (List.eq_nil_of_length_eq_zero none)
  unfold tailOffset
  split <;> simp only [width] at * <;> omega

end Intact

theorem wellFormed_iff : v.WellFormed ↔ v.Intact ∧ (v.tail = [] → v.length = 0) := by
  constructor
  · intro h
    have treeLength : width * v.leaves.length = v.tailOffset := by
      rw [← h.root_length, Node.toList_eq_leaves,
        Blocks.length_flatten fun _ hi => h.root.length_of_mem_leaves hi, leaves]
    have offset := v.tailOffset_le
    have behind := h.tail_length
    refine ⟨⟨h.height_pos, h.root, ?_, h.tail_le, by omega⟩, h.tail_nonempty⟩
    exact h.minimal.imp_right (h.root.two_children_iff h.height_pos).1
  · rintro ⟨h, filled⟩
    have offset := h.tailOffset_eq filled
    have total := h.length_eq
    refine ⟨h.height_pos, by omega, h.tail_le, filled, h.root, ?_, ?_⟩
    · rw [Node.toList_eq_leaves, offset]
      exact h.length_flatten_leaves
    · exact h.minimal.imp_right (h.root.two_children_iff h.height_pos).2

@[simp] theorem WellFormed.length_toList (h : v.WellFormed) : v.toList.length = v.length :=
  (wellFormed_iff.1 h).1.length_toList

theorem empty_wellFormed : (empty : TrieVector α).WellFormed := by
  refine wellFormed_iff.2 ⟨⟨Nat.one_pos, .inl rfl, .inl rfl, Nat.zero_le _, rfl⟩, fun _ => rfl⟩

/-! ### Appending -/

/-- The tail of `v` has moved into the tree, and nothing followed yet. -/
structure Flushed (v w : TrieVector α) : Prop where
  intact : w.Intact
  tail : w.tail = []
  leaves : w.leaves = v.leaves ++ [v.tail]

theorem Intact.flushed {w : TrieVector α} (h : v.Intact) (full : v.tail.length = width)
    (tail : w.tail = []) (length : w.length = v.length) (height_pos : 0 < w.height)
    (root : LeftPacked w.height w.root) (leaves : w.leaves = v.leaves ++ [v.tail])
    (minimal : w.height = 1 ∨ leafCapacity (w.height - 1) < v.leaves.length + 1) :
    Flushed v w := by
  have total := h.length_eq
  have count : w.leaves.length = v.leaves.length + 1 := by
    rw [leaves, List.length_append, List.length_singleton]
  refine ⟨⟨height_pos, .inr root, ?_, ?_, ?_⟩, tail, leaves⟩
  · rw [count]
    exact minimal
  · rw [tail]
    exact Nat.zero_le _
  · rw [length, total, count, tail, full]
    rfl

theorem flushTailChecked_of_full_tree (h : v.Intact) (full : v.tail.length = width)
    (whole : v.leaves.length = leafCapacity v.height)
    (grows : leafCapacity v.height < v.length / width) :
    ∃ r, v.flushTailChecked = .ok r ∧ Flushed v r.value := by
  obtain ⟨items, hi⟩ : ∃ items, items ∈ v.leaves :=
    List.length_pos_iff_exists_mem.1 (whole ▸ leafCapacity_pos v.height)
  have left := (h.root.leftPacked hi).full whole
  let root : Node α := .interior [v.root, .lift v.height (.leaf v.tail)]
  have rootLeaves : root.leaves (v.height + 1) = v.leaves ++ [v.tail] := by
    simp [root, Node.leaves, Node.leaves_lift, leaves]
  have packed : LeftPacked (v.height + 1) root :=
    @LeftPacked.interior α v.height [v.root] _ (by simp [width]) (by simpa using left)
      (Node.lift_leftPacked full v.height)
  refine ⟨⟨⟨root, [], v.length, v.height + 1⟩, [.rootGrew v.length (v.height + 1)]⟩, ?_,
    h.flushed full rfl rfl (Nat.succ_pos _) packed rootLeaves (.inr ?_)⟩
  · simp only [flushTailChecked, grows, if_true, root]
  · rw [Nat.add_sub_cancel, whole]
    exact Nat.lt_succ_self _

theorem flushTailChecked_of_room (h : v.Intact) (full : v.tail.length = width)
    (place : (v.length - 1) / width = v.leaves.length)
    (fits : v.leaves.length < leafCapacity v.height)
    (room : ¬leafCapacity v.height < v.length / width) :
    ∃ r, v.flushTailChecked = .ok r ∧ Flushed v r.value := by
  obtain ⟨above, height⟩ := Nat.exists_eq_succ_of_ne_zero (Nat.ne_of_gt h.height_pos)
  have root := h.root
  have minimal := h.minimal
  rw [height] at root fits minimal room
  obtain ⟨children, interior⟩ := root.exists_children
  have known : v.leaves = (Node.interior children).leaves (above + 1) := by
    rw [leaves, interior, height]
  rw [interior] at root
  have index : (v.length - 1) / width % leafCapacity (above + 1) =
      ((Node.interior children).leaves (above + 1)).length := by
    rw [place, Nat.mod_eq_of_lt fits, known]
  obtain ⟨longer, run, packed, added⟩ := Node.addLeaf_eq root full index
  refine ⟨⟨⟨.interior longer, [], v.length, above + 1⟩, []⟩, ?_,
    h.flushed full rfl rfl (Nat.succ_pos _) packed (by rw [known]; exact added) ?_⟩
  · simp only [flushTailChecked, room, if_false, interior, height, run]
    rfl
  · exact minimal.imp_right Nat.lt_succ_of_lt

theorem Intact.flush (h : v.Intact) (full : v.tail.length = width) :
    ∃ r, v.flushTailChecked = .ok r ∧ Flushed v r.value := by
  have total := h.length_eq
  have most : v.leaves.length ≤ leafCapacity v.height := h.root.length_leaves_le
  have quotient : v.length / width = v.leaves.length + 1 := by
    simp only [width] at *
    omega
  by_cases grows : leafCapacity v.height < v.length / width
  · exact flushTailChecked_of_full_tree h full (by omega) grows
  · have place : (v.length - 1) / width = v.leaves.length := by
      simp only [width] at *
      omega
    exact flushTailChecked_of_room h full place (by omega) grows

/-- What a turn of an append starts from: the vector itself, or the one that its full
tail leaves behind. -/
def HasRoom (v : TrieVector α) (r : Logged (TrieVector α)) : Prop :=
  v.tail.length = width ∧ v.flushTailChecked = .ok r ∨ v.tail.length < width ∧ r = ⟨v, []⟩

def addToTail (v : TrieVector α) (fresh : List α) : TrieVector α :=
  { v with tail := v.tail ++ fresh, length := v.length + fresh.length }

@[simp] theorem toList_addToTail (v : TrieVector α) (fresh : List α) :
    (v.addToTail fresh).toList = v.toList ++ fresh :=
  (List.append_assoc _ _ _).symm

theorem appendChecked_cons {r : Logged (TrieVector α)} (start : v.HasRoom r)
    (events : List Event) (a : α) (rest : List α) :
    v.appendChecked events (a :: rest) =
      (r.value.addToTail (a :: rest.take (width - r.value.tail.length - 1))).appendChecked
        (events ++ r.events) (rest.drop (width - r.value.tail.length - 1)) := by
  rw [appendChecked]
  rcases start with ⟨full, run⟩ | ⟨room, rfl⟩
  · rw [if_pos full, run]
    rfl
  · rw [if_neg (Nat.ne_of_lt room), if_pos room]
    rfl

theorem Intact.hasRoom (h : v.Intact) :
    ∃ r, v.HasRoom r ∧ r.value.Intact ∧ r.value.tail.length < width ∧
      r.value.toList = v.toList := by
  by_cases full : v.tail.length = width
  · obtain ⟨r, run, flushed⟩ := h.flush full
    refine ⟨r, .inl ⟨full, run⟩, flushed.intact, ?_, ?_⟩
    · simp [flushed.tail, width]
    · simp [toList_eq_leaves, flushed.leaves, flushed.tail]
  · have room : v.tail.length < width := Nat.lt_of_le_of_ne h.tail_le full
    exact ⟨⟨v, []⟩, .inr ⟨room, rfl⟩, h, room, rfl⟩

theorem Intact.addToTail {fresh : List α} (h : v.Intact)
    (fits : v.tail.length + fresh.length ≤ width) (nonempty : fresh ≠ []) :
    (v.addToTail fresh).WellFormed := by
  have total := h.length_eq
  refine wellFormed_iff.2 ⟨⟨h.height_pos, h.root, h.minimal, ?_, ?_⟩, ?_⟩
  · simpa [TrieVector.addToTail] using fits
  · change v.length + fresh.length = width * v.leaves.length + (v.tail ++ fresh).length
    rw [List.length_append]
    omega
  · intro none
    simp [TrieVector.addToTail, nonempty] at none

/-- Induction over the turns of an append. Behind the new elements the tail is not empty, so
every turn starts from a vector that is whole. -/
theorem WellFormed.induction_on_turns {P : TrieVector α → List α → Prop} (h : v.WellFormed)
    (items : List α) (nil : ∀ {v : TrieVector α}, v.WellFormed → P v [])
    (turn : ∀ {v : TrieVector α} {r : Logged (TrieVector α)} {a : α} {rest : List α} {k : Nat},
      v.WellFormed → v.HasRoom r → r.value.Intact → r.value.tail.length < width →
      r.value.toList = v.toList → width - r.value.tail.length - 1 = k →
      P (r.value.addToTail (a :: rest.take k)) (rest.drop k) → P v (a :: rest)) : P v items := by
  induction count : items.length using Nat.strongRecOn generalizing v items with
  | ind n ih =>
    cases items with
    | nil => exact nil h
    | cons a rest =>
      obtain ⟨r, hasRoom, intact, room, same⟩ := (wellFormed_iff.1 h).1.hasRoom
      let k := width - r.value.tail.length - 1
      have fits : r.value.tail.length + (a :: rest.take k).length ≤ width := by
        rw [List.length_cons, List.length_take]
        omega
      have next := intact.addToTail fits (List.cons_ne_nil _ _)
      have shorter : (rest.drop k).length < n := by
        rw [← count, List.length_drop, List.length_cons]
        omega
      exact turn h hasRoom intact room same rfl (ih _ shorter next _ rfl)

theorem WellFormed.appendChecked (h : v.WellFormed) (events : List Event) (items : List α) :
    ∃ r, v.appendChecked events items = .ok r ∧ r.value.WellFormed ∧
      r.value.toList = v.toList ++ items := by
  refine h.induction_on_turns items (P := fun v items => ∀ events,
    ∃ r, v.appendChecked events items = .ok r ∧ r.value.WellFormed ∧
      r.value.toList = v.toList ++ items) ?_ ?_ events
  · intro v h events
    refine ⟨⟨v, events⟩, ?_, h, by simp⟩
    rw [TrieVector.appendChecked]
  · intro v start a rest k _ hasRoom _ _ same space later events
    obtain ⟨r, run, wellFormed, contents⟩ := later (events ++ start.events)
    refine ⟨r, ?_, wellFormed, ?_⟩
    · rw [appendChecked_cons hasRoom, space, run]
    · rw [contents, toList_addToTail, same, List.append_assoc, List.cons_append,
        List.take_append_drop]

theorem WellFormed.append_eq (h : v.WellFormed) (items : List α) :
    (v.append items).value.WellFormed ∧ (v.append items).value.toList = v.toList ++ items := by
  obtain ⟨r, run, wellFormed, contents⟩ := h.appendChecked [] items
  rw [append, run]
  exact ⟨wellFormed, contents⟩

theorem WellFormed.length_append (h : v.WellFormed) (items : List α) :
    (v.append items).value.length = v.length + items.length := by
  obtain ⟨made, contents⟩ := h.append_eq items
  rw [← made.length_toList, contents, List.length_append, h.length_toList]

theorem ofList_eq (items : List α) :
    (ofList items).value.WellFormed ∧ (ofList items).value.toList = items :=
  empty_wellFormed.append_eq items

/-! ### Reading and replacing -/

theorem WellFormed.leafFor_eq (h : v.WellFormed) {index : Nat} (inside : index < v.length) :
    v.leafFor index = .ok ((v.toList.drop (index / width * width)).take width) := by
  obtain ⟨intact, filled⟩ := wellFormed_iff.1 h
  have total := intact.length_eq
  have offset := intact.tailOffset_eq filled
  have most := intact.tail_le
  by_cases behind : v.tailOffset ≤ index
  · have place : index / width * width = v.leaves.flatten.length := by
      rw [intact.length_flatten_leaves]
      simp only [width] at *
      omega
    rw [leafFor, if_pos behind, toList_eq_leaves, place, List.drop_left,
      List.take_of_length_le most]
  · have place : index / width < v.leaves.length := by
      simp only [width] at *
      omega
    have found : v.leaves[index / width]? = some v.leaves[index / width] :=
      List.getElem?_eq_getElem place
    have packed := intact.root.leftPacked (List.mem_of_getElem? found)
    have within : index / width % leafCapacity v.height = index / width :=
      Nat.mod_eq_of_lt (Nat.lt_of_lt_of_le place packed.length_leaves_le)
    have reached := packed.leafAt_eq (by rw [within]; exact found)
    rw [leafFor, if_neg behind, reached, toList_eq_leaves,
      Blocks.take_drop_flatten intact.length_of_mem_leaves found]

theorem entry_of_leaf {items : List α} {index : Nat} {a : α} (found : items[index]? = some a) :
    Chunk.entry ((items.drop (index / width * width)).take width) (index % width) = .ok a := by
  have below : index % width < width := Nat.mod_lt index (by decide)
  have place : index / width * width + index % width = index := by
    rw [Nat.mul_comm]
    exact Nat.div_add_mod index width
  rw [Chunk.entry, List.getElem?_take_of_lt below, List.getElem?_drop, place, found]

theorem WellFormed.readChecked_eq {index : Nat} {a : α} (h : v.WellFormed)
    (found : v.toList[index]? = some a) : v.readChecked index = .ok a := by
  obtain ⟨bound, -⟩ := List.getElem?_eq_some_iff.1 found
  rw [readChecked, h.leafFor_eq (h.length_toList ▸ bound)]
  exact entry_of_leaf found

theorem WellFormed.get?_eq (h : v.WellFormed) (index : Nat) : v.get? index = v.toList[index]? := by
  have length := h.length_toList
  by_cases inside : index < v.length
  · have found : v.toList[index]? = some v.toList[index] := List.getElem?_eq_getElem (by omega)
    rw [get?, if_pos inside, h.readChecked_eq found, found]
    rfl
  · rw [get?, if_neg inside, List.getElem?_eq_none (by omega)]

theorem replaceChecked_of_tail {index : Nat} (h : v.WellFormed) (a : α)
    (inside : index < v.length) (behind : v.tailOffset ≤ index) :
    ∃ w, v.replaceChecked index a = .ok w ∧ w.WellFormed ∧
      w.toList = v.toList.set index a := by
  obtain ⟨intact, filled⟩ := wellFormed_iff.1 h
  have total := intact.length_eq
  have offset := intact.tailOffset_eq filled
  have most := intact.tail_le
  have flattened := intact.length_flatten_leaves
  have place : index - v.leaves.flatten.length = index % width := by
    simp only [width] at *
    omega
  have bound : index % width < v.tail.length := by omega
  refine ⟨{ v with tail := v.tail.set (index % width) a }, ?_, wellFormed_iff.2
    ⟨⟨h.height_pos, h.root, intact.minimal, ?_, ?_⟩, ?_⟩, ?_⟩
  · simp only [replaceChecked, behind, if_true, Chunk.put_of_lt a bound]
    rfl
  · simpa using most
  · change v.length = width * v.leaves.length + (v.tail.set (index % width) a).length
    rw [List.length_set]
    exact total
  · intro none
    exact filled (by simpa using none)
  · change v.root.toList v.height ++ v.tail.set (index % width) a = _
    rw [toList_eq_leaves, List.set_append_right index a (by omega), place,
      Node.toList_eq_leaves, leaves]

theorem replaceChecked_of_tree {index : Nat} (h : v.WellFormed) (a : α)
    (before : ¬v.tailOffset ≤ index) :
    ∃ w, v.replaceChecked index a = .ok w ∧ w.WellFormed ∧
      w.toList = v.toList.set index a := by
  obtain ⟨intact, filled⟩ := wellFormed_iff.1 h
  have offset := intact.tailOffset_eq filled
  have place : index / width < v.leaves.length := by
    simp only [width] at *
    omega
  have found : v.leaves[index / width]? = some v.leaves[index / width] :=
    List.getElem?_eq_getElem place
  have packed := intact.root.leftPacked (List.mem_of_getElem? found)
  have within : index / width % leafCapacity v.height = index / width :=
    Nat.mod_eq_of_lt (Nat.lt_of_lt_of_le place packed.length_leaves_le)
  obtain ⟨changed, run, changedPacked, change⟩ :=
    packed.replaceAt_eq a (by rw [within]; exact found)
  rw [within] at change
  let w : TrieVector α := { v with root := changed }
  have change : w.leaves = v.leaves.modify (index / width) (·.set (index % width) a) := change
  have count : w.leaves.length = v.leaves.length := by rw [change, List.length_modify]
  refine ⟨w, ?_, wellFormed_iff.2 ⟨⟨h.height_pos, .inr changedPacked, ?_, h.tail_le, ?_⟩, filled⟩,
    ?_⟩
  · simp only [replaceChecked, before, if_false, run]
    rfl
  · rw [count]
    exact intact.minimal
  · rw [count]
    exact intact.length_eq
  · have position : width * (index / width) + index % width = index := Nat.div_add_mod index width
    have below : index < v.leaves.flatten.length := by
      rw [intact.length_flatten_leaves, ← offset]
      omega
    rw [toList_eq_leaves, toList_eq_leaves, change,
      Blocks.flatten_modify_set a intact.length_of_mem_leaves place (Nat.mod_lt _ (by decide)),
      position, List.set_append_left index a below]

theorem WellFormed.replaceChecked {index : Nat} (h : v.WellFormed) (a : α)
    (inside : index < v.length) :
    ∃ w, v.replaceChecked index a = .ok w ∧ w.WellFormed ∧ w.toList = v.toList.set index a := by
  by_cases behind : v.tailOffset ≤ index
  · exact replaceChecked_of_tail h a inside behind
  · exact replaceChecked_of_tree h a behind

theorem WellFormed.replace_eq {index : Nat} (h : v.WellFormed) (a : α)
    (inside : index < v.length) :
    (v.replace index a).WellFormed ∧ (v.replace index a).toList = v.toList.set index a := by
  obtain ⟨w, run, result⟩ := h.replaceChecked a inside
  rw [replace, run]
  exact result

theorem WellFormed.length_replace {index : Nat} (h : v.WellFormed) (a : α)
    (inside : index < v.length) : (v.replace index a).length = v.length := by
  obtain ⟨wellFormed, changed⟩ := h.replace_eq a inside
  rw [← wellFormed.length_toList, changed, List.length_set, h.length_toList]

/-! ### Checking -/

theorem WellFormed.check (h : v.WellFormed) : v.check = true := by
  obtain ⟨below, height⟩ := Nat.exists_eq_succ_of_ne_zero (Nat.ne_of_gt h.height_pos)
  have root := h.root
  have minimal := h.minimal
  rw [height] at root minimal
  obtain ⟨children, interior⟩ := root.exists_children
  simp only [TrieVector.check, Bool.and_eq_true, beq_iff_eq]
  refine ⟨⟨⟨⟨h.tail_length, ?_⟩, ?_⟩, ?_⟩, ?_⟩
  · cases tail : v.tail with
    | nil => simp [isEmpty, h.tail_nonempty tail]
    | cons a rest => simp
  · rw [Node.size_eq_length, h.root_length]
  · rw [interior] at minimal ⊢
    rw [height]
    rcases minimal with one | ⟨first, second, rest, several⟩
    · simp [Nat.succ.inj one]
    · injection several with several
      simp [several]
  · rw [height]
    exact root.packed

end PersistentCollections.TrieVector
