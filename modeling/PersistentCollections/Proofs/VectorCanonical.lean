import PersistentCollections.Proofs.VectorHistory

/-! One form for each list. The elements of a vector decide its tail, its leaves, the
height of its tree and every node in it; how the vector came about leaves no trace in
it. So appending in any batches, or one element at a time, makes the same vector. -/

namespace PersistentCollections

theorem leafCapacity_le {low high : Nat} (h : low ≤ high) :
    leafCapacity low ≤ leafCapacity high := by
  induction h with
  | refl => exact Nat.le_refl _
  | @step high _ ih => exact Nat.le_trans ih (Nat.le_mul_of_pos_left _ (by decide))

namespace Node

variable {α : Type} {height : Nat} {a b : Node α}

theorem LeftPacked.leaves_bounds (h : LeftPacked height a) :
    a.leaves height ≠ [] ∧ (a.leaves height).length ≤ leafCapacity height :=
  ⟨List.length_pos_iff.1 h.length_leaves_pos, h.length_leaves_le⟩

theorem LeftPacked.eq_of_leaves (ha : LeftPacked height a) (hb : LeftPacked height b)
    (same : a.leaves height = b.leaves height) : a = b := by
  -- Level by level: below full children the leaves of each child are cut off by their number.
  induction height generalizing a b with
  | zero =>
    cases ha with
    | leaf _ =>
      cases hb with
      | leaf _ => rw [List.singleton_inj.1 same]
  | succ height ih =>
    have wholeA := ha
    have wholeB := hb
    cases ha with
    | @interior _ _ lastA _ belowA packedA =>
      cases hb with
      | @interior _ _ lastB _ belowB packedB =>
        rw [Blocks.eq_of_flatMap_eq (fun child hc => (belowA child hc).length_leaves)
          (fun child hc => (belowB child hc).length_leaves) packedA.leaves_bounds
          packedB.leaves_bounds (fun _ hx _ hy => ih (wholeA.child hx) (wholeB.child hy)) same]

theorem PackedRoot.eq_of_leaves (ha : PackedRoot height a) (hb : PackedRoot height b)
    (same : a.leaves height = b.leaves height) : a = b := by
  rcases ha with rfl | packedA
  · rcases hb with rfl | packedB
    · rfl
    · rw [leaves_empty] at same
      exact absurd same.symm packedB.leaves_bounds.1
  · rcases hb with rfl | packedB
    · rw [leaves_empty] at same
      exact absurd same packedA.leaves_bounds.1
    · exact packedA.eq_of_leaves packedB same

end Node

namespace TrieVector

variable {α : Type} {v w : TrieVector α}

theorem Intact.height_le (hv : v.Intact) (hw : w.Intact)
    (same : v.leaves.length = w.leaves.length) : v.height ≤ w.height := by
  have positive := hw.height_pos
  rcases hv.minimal with one | needed
  · omega
  · have most : w.leaves.length ≤ leafCapacity w.height := hw.root.length_leaves_le
    refine Nat.le_of_not_lt fun higher => ?_
    have lower : leafCapacity w.height ≤ leafCapacity (v.height - 1) := leafCapacity_le (by omega)
    omega

theorem WellFormed.leaves_tail_eq (hv : v.WellFormed) (hw : w.WellFormed)
    (same : v.toList = w.toList) : v.leaves = w.leaves ∧ v.tail = w.tail := by
  obtain ⟨intactV, filledV⟩ := wellFormed_iff.1 hv
  obtain ⟨intactW, filledW⟩ := wellFormed_iff.1 hw
  have length : v.length = w.length := by rw [← hv.length_toList, same, hw.length_toList]
  have none {u : TrieVector α} (intact : u.Intact) (zero : u.length = 0) :
      u.leaves = [] ∧ u.tail = [] := by
    have total := intact.length_eq
    simp only [width] at total
    exact ⟨List.eq_nil_of_length_eq_zero (by omega), List.eq_nil_of_length_eq_zero (by omega)⟩
  by_cases zero : v.length = 0
  · obtain ⟨leavesV, tailV⟩ := none intactV zero
    obtain ⟨leavesW, tailW⟩ := none intactW (length ▸ zero)
    exact ⟨leavesV.trans leavesW.symm, tailV.trans tailW.symm⟩
  · have joined (u : TrieVector α) : (u.leaves ++ [u.tail]).flatMap id = u.toList := by
      rw [List.flatMap_id, List.flatten_append, List.flatten_singleton, toList_eq_leaves]
    have blocks := Blocks.eq_of_flatMap_eq (f := id) intactV.length_of_mem_leaves
      intactW.length_of_mem_leaves ⟨fun empty => zero (filledV empty), hv.tail_le⟩
      ⟨fun empty => zero (length.trans (filledW empty)), hw.tail_le⟩ (fun _ _ _ _ equal => equal)
      ((joined v).trans (same.trans (joined w).symm))
    obtain ⟨leaves, tail⟩ := List.append_inj' blocks rfl
    exact ⟨leaves, List.singleton_inj.1 tail⟩

theorem WellFormed.eq_of_toList (hv : v.WellFormed) (hw : w.WellFormed)
    (same : v.toList = w.toList) : v = w := by
  obtain ⟨leaves, tail⟩ := hv.leaves_tail_eq hw same
  have intactV := (wellFormed_iff.1 hv).1
  have intactW := (wellFormed_iff.1 hw).1
  have count := congrArg List.length leaves
  have height : v.height = w.height :=
    Nat.le_antisymm (intactV.height_le intactW count) (intactW.height_le intactV count.symm)
  have length : v.length = w.length := by rw [← hv.length_toList, same, hw.length_toList]
  have root : v.root = w.root := by
    have packed := hw.root
    rw [TrieVector.leaves, TrieVector.leaves, ← height] at leaves
    rw [← height] at packed
    exact hv.root.eq_of_leaves packed leaves
  cases v
  cases w
  exact TrieVector.mk.injEq .. ▸ ⟨root, tail, length, height⟩

theorem WellFormed.append_append (h : v.WellFormed) (xs ys : List α) :
    (v.append (xs ++ ys)).value = ((v.append xs).value.append ys).value := by
  obtain ⟨wellFormed, whole⟩ := h.append_eq (xs ++ ys)
  obtain ⟨first, front⟩ := h.append_eq xs
  obtain ⟨second, both⟩ := first.append_eq ys
  exact wellFormed.eq_of_toList second (by rw [whole, both, front, List.append_assoc])

theorem WellFormed.append_eq_pushes (h : v.WellFormed) (xs : List α) :
    (v.append xs).value = xs.foldl (fun v a => (v.push a).value) v := by
  induction xs generalizing v with
  | nil =>
    obtain ⟨wellFormed, same⟩ := h.append_eq []
    rw [List.append_nil] at same
    exact wellFormed.eq_of_toList h same
  | cons a rest ih =>
    have pushed : (v.push a).value.WellFormed := (h.append_eq [a]).1
    rw [List.foldl_cons, ← ih pushed]
    exact h.append_append [a] rest

/-- Vectors of equal elements are the same, whatever histories they have, and so are the
results of appending to one of them in different batches. -/
theorem history_canonical (steps others : List (VersionStep α)) :
    ∀ v ∈ History.run version [] steps,
      (∀ w ∈ History.run version [] others, v.toList = w.toList → v = w) ∧
      ∀ xs ys : List α,
        (v.append (xs ++ ys)).value = ((v.append xs).value.append ys).value ∧
        (v.append xs).value = xs.foldl (fun v a => (v.push a).value) v := by
  have inForm (steps : List (VersionStep α)) : ∀ v ∈ History.run version [] steps, v.WellFormed :=
    History.run_forall version_wellFormed (by simp) steps
  intro v member
  have wellFormed := inForm steps v member
  refine ⟨fun w other same => wellFormed.eq_of_toList (inForm others w other) same, fun xs ys => ?_⟩
  exact ⟨wellFormed.append_append xs ys, wellFormed.append_eq_pushes xs⟩

theorem history_canonical_batches :
    let whole := (ofList (List.range 1057)).value
    let first := (ofList ((List.range 1000).set 31 0)).value
    let second := (first.append ((List.range 57).map (1000 + ·))).value
    let third := second.replace 31 31
    whole.toList = third.toList ∧ whole = third ∧
      (whole.append (List.range 7 ++ List.range 9)).value =
        ((whole.append (List.range 7)).value.append (List.range 9)).value := by
  intro whole first second third
  let steps : List (VersionStep Nat) := [.ofList ((List.range 1000).set 31 0),
    .append 0 ((List.range 57).map (1000 + ·)), .set 1 31 31]
  obtain ⟨_, wholeItems⟩ := ofList_eq (List.range 1057)
  obtain ⟨firstForm, firstItems⟩ := ofList_eq ((List.range 1000).set 31 0)
  obtain ⟨secondForm, secondItems⟩ := firstForm.append_eq ((List.range 57).map (1000 + ·))
  have inside : 31 < second.length := by
    rw [← secondForm.length_toList, secondItems, firstItems]
    simp
  have restored : (List.range 1000).set 31 31 = List.range 1000 := by
    have bound : 31 < (List.range 1000).length := by simp
    have entry : (List.range 1000)[31] = 31 := List.getElem_range bound
    have same := List.set_getElem_self bound
    rwa [entry] at same
  have items : whole.toList = third.toList := by
    rw [wholeItems, (secondForm.replace_eq 31 inside).2, secondItems, firstItems,
      List.set_append_left 31 31 (by simp), List.set_set, restored, ← List.range_add]
  have changed : (second.set 31 31).toOption = some third := by
    rw [TrieVector.set, checkIndex_ok_iff.2 inside]
    rfl
  have versions : History.run version [] steps = [first, second, third] := by
    simp [History.run, History.next, version, steps, first, second, changed]
  have member : third ∈ History.run version [] steps := by simp [versions]
  have start : whole ∈ History.run version [] [.ofList (List.range 1057)] :=
    List.mem_singleton.2 rfl
  obtain ⟨unique, batches⟩ := history_canonical [.ofList (List.range 1057)] steps whole start
  exact ⟨items, unique third member items, (batches (List.range 7) (List.range 9)).1⟩

end TrieVector

end PersistentCollections
