import PersistentCollections.Trie
import PersistentCollections.Proofs.Blocks

/-! The shape of a tree that is filled from the left: all leaves are full, and every
child of a node but its last one is full all the way down. Such a tree is known by its
height and its leaves in order; reading, replacing and adding a leaf are stated on that
sequence. A walk to a position that the tree holds never breaches. -/

namespace PersistentCollections

theorem leafCapacity_pos (height : Nat) : 0 < leafCapacity height := by
  induction height with
  | zero => exact Nat.one_pos
  | succ height ih => exact Nat.mul_pos (by decide) ih

theorem digit_eq (height index : Nat) : digit height index = index / leafCapacity height % width := by
  induction height generalizing index with
  | zero => rw [digit_zero, leafCapacity, Nat.div_one]
  | succ height ih => rw [digit_succ, ih, leafCapacity, Nat.div_div_eq_div_mul]

theorem digit_leaf (height index : Nat) :
    digit (height + 1) index =
      index / width % leafCapacity (height + 1) / leafCapacity height := by
  rw [digit_succ, digit_eq, leafCapacity, Nat.mod_mul_left_div_self]

theorem leaf_mod_child (height leaf : Nat) :
    leaf % leafCapacity (height + 1) % leafCapacity height = leaf % leafCapacity height :=
  Nat.mod_mul_left_mod leaf width (leafCapacity height)

namespace Node

variable {α : Type}

def leaves : Nat → Node α → List (List α)
  | 0, leaf items => [items]
  | height + 1, interior children => children.flatMap (leaves height)
  | _, _ => []

/-- A subtree without room for a further leaf. -/
inductive Full : Nat → Node α → Prop
  | leaf {items : List α} : items.length = width → Full 0 (.leaf items)
  | interior {height : Nat} {children : List (Node α)} : children.length = width →
      (∀ child ∈ children, Full height child) → Full (height + 1) (.interior children)

/-- A subtree with at least one leaf, all of whose room lies to the right. -/
inductive LeftPacked : Nat → Node α → Prop
  | leaf {items : List α} : items.length = width → LeftPacked 0 (.leaf items)
  | interior {height : Nat} {full : List (Node α)} {last : Node α} : full.length < width →
      (∀ child ∈ full, Full height child) → LeftPacked height last →
      LeftPacked (height + 1) (.interior (full ++ [last]))

/-- The root of a tree: left-packed, or without any leaf. -/
def PackedRoot (height : Nat) (node : Node α) : Prop :=
  node = .interior [] ∨ LeftPacked height node

theorem toList_eq_leaves (height : Nat) (node : Node α) :
    node.toList height = (node.leaves height).flatten := by
  induction height generalizing node with
  | zero => cases node <;> simp [toList, leaves]
  | succ height ih =>
    cases node with
    | leaf items => rfl
    | interior children =>
      have same : toList (α := α) height = fun child => (leaves height child).flatten := funext ih
      rw [toList, leaves, same, List.flatten_eq_flatMap, List.flatMap_assoc]
      simp only [List.flatMap_id]

theorem size_eq_length (height : Nat) (node : Node α) :
    node.size height = (node.toList height).length := by
  induction height generalizing node with
  | zero => cases node <;> rfl
  | succ height ih =>
    cases node with
    | leaf items => rfl
    | interior children =>
      have same : size (α := α) height = fun child => (toList height child).length := funext ih
      have general (n : Nat) : children.foldl (fun n child => n + (toList height child).length) n =
          n + (children.flatMap (toList height)).length := by
        induction children generalizing n with
        | nil => rfl
        | cons child rest step =>
          rw [List.foldl_cons, step, List.flatMap_cons, List.length_append, Nat.add_assoc]
      rw [size, same, general, Nat.zero_add, toList]

namespace Full

variable {height : Nat} {node : Node α}

theorem length_leaves (h : Full height node) :
    (node.leaves height).length = leafCapacity height := by
  induction h with
  | leaf _ => rfl
  | interior count _ ih => rw [leaves, Blocks.length_flatMap ih, count, leafCapacity, Nat.mul_comm]

theorem leftPacked (h : Full height node) : LeftPacked height node := by
  induction h with
  | leaf count => exact .leaf count
  | @interior height children count below ih =>
    have nonempty : children ≠ [] := by
      rintro rfl
      simp [width] at count
    rw [← List.dropLast_concat_getLast nonempty]
    refine .interior ?_ (fun child hc => below child ((List.dropLast_sublist children).subset hc)) ?_
    · rw [List.length_dropLast, count]
      decide
    · exact ih _ (List.getLast_mem nonempty)

end Full

theorem length_leaves_snoc {height : Nat} {full : List (Node α)} {last : Node α}
    (below : ∀ child ∈ full, Full height child) :
    ((interior (full ++ [last])).leaves (height + 1)).length =
      leafCapacity height * full.length + (last.leaves height).length := by
  rw [leaves, List.flatMap_append, List.length_append, List.flatMap_singleton,
    Blocks.length_flatMap fun child hc => (below child hc).length_leaves]

namespace LeftPacked

variable {height : Nat} {node : Node α}

theorem length_leaves_pos (h : LeftPacked height node) : 0 < (node.leaves height).length := by
  induction h with
  | leaf _ => exact Nat.one_pos
  | interior _ below _ ih =>
    rw [length_leaves_snoc below]
    omega

theorem length_leaves_le (h : LeftPacked height node) :
    (node.leaves height).length ≤ leafCapacity height := by
  induction h with
  | leaf _ => exact Nat.le_refl 1
  | @interior height full last room below _ ih =>
    have more : leafCapacity height * (full.length + 1) ≤ leafCapacity height * width :=
      Nat.mul_le_mul_left _ room
    rw [length_leaves_snoc below, leafCapacity, Nat.mul_comm width]
    rw [Nat.mul_succ] at more
    omega

theorem full (h : LeftPacked height node)
    (count : (node.leaves height).length = leafCapacity height) : Full height node := by
  induction h with
  | leaf items => exact .leaf items
  | @interior height full last room below packed ih =>
    rw [length_leaves_snoc below, leafCapacity, Nat.mul_comm width] at count
    -- Fewer children, or a last one with room, would leave too few leaves.
    have most := packed.length_leaves_le
    have more : leafCapacity height * (full.length + 1) ≤ leafCapacity height * width :=
      Nat.mul_le_mul_left _ room
    rw [Nat.mul_succ] at more
    have lastCount : (last.leaves height).length = leafCapacity height := by omega
    have children : full.length + 1 = width := by
      apply Nat.eq_of_mul_eq_mul_left (leafCapacity_pos height)
      rw [Nat.mul_succ]
      omega
    refine .interior (by simpa using children) fun child hc => ?_
    rcases List.mem_append.1 hc with hc | hc
    · exact below child hc
    · obtain rfl := List.mem_singleton.1 hc
      exact ih lastCount

theorem child {children : List (Node α)} (h : LeftPacked (height + 1) (.interior children))
    {child : Node α} (hc : child ∈ children) : LeftPacked height child := by
  cases h with
  | interior room below packed =>
    rcases List.mem_append.1 hc with hc | hc
    · exact (below child hc).leftPacked
    · obtain rfl := List.mem_singleton.1 hc
      exact packed

theorem length_of_mem_leaves (h : LeftPacked height node) {items : List α}
    (hi : items ∈ node.leaves height) : items.length = width := by
  induction height generalizing node with
  | zero =>
    cases h with
    | leaf count =>
      obtain rfl := List.mem_singleton.1 hi
      exact count
  | succ height ih =>
    cases node with
    | leaf _ => cases h
    | interior children =>
      obtain ⟨child, hc, hi⟩ := List.mem_flatMap.1 hi
      exact ih (h.child hc) hi

theorem packed (h : LeftPacked height node) : node.packed height = true := by
  induction height generalizing node with
  | zero =>
    cases h with
    | leaf count => simpa [Node.packed] using count
  | succ height ih =>
    cases node with
    | leaf _ => cases h
    | interior children => exact List.all_eq_true.2 fun child hc => ih (h.child hc)

theorem two_children_iff (h : LeftPacked (height + 1) node) :
    (∃ first second rest, node = .interior (first :: second :: rest)) ↔
      leafCapacity height < (node.leaves (height + 1)).length := by
  cases h with
  | @interior _ full last room below packed =>
    have most := packed.length_leaves_le
    have least := packed.length_leaves_pos
    rw [length_leaves_snoc below]
    cases full with
    | nil => simpa using most
    | cons first rest =>
      have children : ∃ second others, rest ++ [last] = second :: others :=
        List.exists_cons_of_ne_nil (by simp)
      obtain ⟨second, others, split⟩ := children
      simp only [List.cons_append, split, List.length_cons, Nat.mul_succ]
      refine iff_of_true ⟨first, second, others, rfl⟩ ?_
      omega

theorem descend {children : List (Node α)} {index : Nat} {items : List α}
    (h : LeftPacked (height + 1) (.interior children))
    (found : ((Node.interior children).leaves (height + 1))[
      index / width % leafCapacity (height + 1)]? = some items) :
    ∃ child, children[digit (height + 1) index]? = some child ∧ LeftPacked height child ∧
      (child.leaves height)[index / width % leafCapacity height]? = some items := by
  have whole := h
  cases h with
  | @interior _ full last room below packed =>
    have even := fun child hc => (below child hc).length_leaves
    rw [leaves, Blocks.getElem?_flatMap (leafCapacity_pos height) even packed.length_leaves_le,
      leaf_mod_child, ← digit_leaf] at found
    obtain ⟨child, at_child, found⟩ := Option.bind_eq_some_iff.1 found
    exact ⟨child, at_child, whole.child (List.mem_of_getElem? at_child), found⟩

theorem leafAt_eq {index : Nat} {items : List α} (h : LeftPacked height node)
    (found : (node.leaves height)[index / width % leafCapacity height]? = some items) :
    node.leafAt height index = .ok items := by
  induction height generalizing node with
  | zero =>
    cases h with
    | leaf count =>
      rw [leafCapacity, Nat.mod_one] at found
      obtain rfl : _ = items := by simpa [leaves] using found
      rfl
  | succ height ih =>
    cases node with
    | leaf _ => cases h
    | interior children =>
      obtain ⟨child, at_child, packed, found⟩ := h.descend found
      rw [leafAt, at_child]
      exact ih packed found

theorem full_of_mem_take {children : List (Node α)} {i : Nat} {before : Node α}
    (h : LeftPacked (height + 1) (.interior children)) (inside : i < children.length)
    (hb : before ∈ children.take i) : Full height before := by
  cases h with
  | @interior _ full last room below packed =>
    rw [List.length_append, List.length_singleton] at inside
    rw [List.take_append_of_le_length (by omega)] at hb
    exact below before (List.mem_of_mem_take hb)

theorem setChild {children : List (Node α)} {i : Nat} {child changed : Node α}
    (h : LeftPacked (height + 1) (.interior children)) (found : children[i]? = some child)
    (hc : LeftPacked height changed)
    (count : (changed.leaves height).length = (child.leaves height).length) :
    LeftPacked (height + 1) (.interior (children.set i changed)) := by
  cases h with
  | @interior _ full last room below packed =>
    by_cases inside : i < full.length
    · rw [List.getElem?_append_left inside] at found
      have childFull := below child (List.mem_of_getElem? found)
      rw [List.set_append_left i changed inside]
      refine .interior (by simpa using room) (fun other ho => ?_) packed
      rcases List.mem_or_eq_of_mem_set ho with ho | rfl
      · exact below other ho
      · exact hc.full (count.trans childFull.length_leaves)
    · obtain ⟨bound, -⟩ := List.getElem?_eq_some_iff.1 found
      rw [List.length_append, List.length_singleton] at bound
      have last_place : i - full.length = 0 := by omega
      rw [List.set_append_right i changed (Nat.le_of_not_lt inside), last_place]
      exact .interior room below hc

theorem replaceAt_eq {index : Nat} {items : List α} (a : α) (h : LeftPacked height node)
    (found : (node.leaves height)[index / width % leafCapacity height]? = some items) :
    ∃ changed, node.replaceAt height index a = .ok changed ∧ LeftPacked height changed ∧
      changed.leaves height = (node.leaves height).modify (index / width % leafCapacity height)
        (·.set (index % width) a) := by
  induction height generalizing node with
  | zero =>
    cases h with
    | @leaf items count =>
      have place : digit 0 index < items.length := by
        rw [count]
        exact digit_lt 0 index
      refine ⟨.leaf (items.set (digit 0 index) a), ?_, .leaf (by simpa using count), ?_⟩
      · rw [replaceAt, Chunk.put_of_lt a place]
        rfl
      · rw [leafCapacity, Nat.mod_one, digit_zero]
        rfl
  | succ height ih =>
    cases node with
    | leaf _ => cases h
    | interior children =>
      obtain ⟨child, at_child, packed, found⟩ := h.descend found
      obtain ⟨changed, run, changedPacked, change⟩ := ih packed found
      obtain ⟨child_inside, -⟩ := List.getElem?_eq_some_iff.1 at_child
      obtain ⟨leaf_inside, -⟩ := List.getElem?_eq_some_iff.1 found
      have count : (changed.leaves height).length = (child.leaves height).length := by
        rw [change, List.length_modify]
      refine ⟨.interior (children.set (digit (height + 1) index) changed), ?_,
        h.setChild at_child changedPacked count, ?_⟩
      · simp only [replaceAt, at_child, run, bind, Except.bind, pure, Except.pure,
          Chunk.put_of_lt changed child_inside]
      · have even : ∀ before ∈ children.take (digit (height + 1) index),
            (before.leaves height).length = leafCapacity height :=
          fun before hb => (h.full_of_mem_take child_inside hb).length_leaves
        have place : leafCapacity height * digit (height + 1) index +
            index / width % leafCapacity height = index / width % leafCapacity (height + 1) := by
          rw [digit_leaf, ← leaf_mod_child height (index / width)]
          exact Nat.div_add_mod _ _
        rw [leaves, Blocks.flatMap_set even at_child leaf_inside change, place, leaves]

end LeftPacked

theorem leaves_lift (height : Nat) (items : List α) :
    (lift height (leaf items)).leaves height = [items] := by
  induction height with
  | zero => rfl
  | succ height ih => rw [lift, leaves, List.flatMap_singleton, ih]

theorem lift_leftPacked {items : List α} (count : items.length = width) (height : Nat) :
    LeftPacked height (lift height (leaf items)) := by
  induction height with
  | zero => exact .leaf count
  | succ height ih => exact @LeftPacked.interior α height [] _ (by simp [width]) (by simp) ih

theorem leaves_empty (height : Nat) : (interior [] : Node α).leaves height = [] := by
  cases height <;> rfl

namespace PackedRoot

variable {height : Nat} {node : Node α} {children : List (Node α)}

theorem leftPacked {items : List α} (h : PackedRoot height node)
    (found : items ∈ node.leaves height) : LeftPacked height node := by
  rcases h with rfl | h
  · simp [leaves_empty] at found
  · exact h

theorem exists_children (h : PackedRoot (height + 1) node) :
    ∃ children, node = .interior children := by
  rcases h with rfl | h
  · exact ⟨[], rfl⟩
  · cases h
    exact ⟨_, rfl⟩

theorem length_of_mem_leaves {items : List α} (h : PackedRoot height node)
    (hi : items ∈ node.leaves height) : items.length = width :=
  (h.leftPacked hi).length_of_mem_leaves hi

theorem length_leaves_le (h : PackedRoot height node) :
    (node.leaves height).length ≤ leafCapacity height := by
  rcases h with rfl | h
  · simp [leaves_empty]
  · exact h.length_leaves_le

theorem packed (h : PackedRoot (height + 1) node) : node.packed (height + 1) = true := by
  rcases h with rfl | h
  · rfl
  · exact h.packed

theorem two_children_iff (h : PackedRoot height node) (positive : 0 < height) :
    (∃ first second rest, node = .interior (first :: second :: rest)) ↔
      leafCapacity (height - 1) < (node.leaves height).length := by
  obtain ⟨below, rfl⟩ := Nat.exists_eq_succ_of_ne_zero (Nat.ne_of_gt positive)
  rcases h with rfl | h
  · simp [leaves]
  · exact h.two_children_iff

theorem room (h : PackedRoot (height + 1) (.interior children)) :
    (∀ child ∈ children, Full height child) ∨
      ∃ full last, children = full ++ [last] ∧ full.length < width ∧
        (∀ child ∈ full, Full height child) ∧ LeftPacked height last ∧
        (last.leaves height).length < leafCapacity height := by
  rcases h with h | h
  · obtain rfl : children = [] := by simpa using h
    exact .inl (by simp)
  · cases h with
    | @interior _ full last few below packed =>
      by_cases count : (last.leaves height).length = leafCapacity height
      · left
        intro child hc
        rcases List.mem_append.1 hc with hc | hc
        · exact below child hc
        · obtain rfl := List.mem_singleton.1 hc
          exact packed.full count
      · right
        have most := packed.length_leaves_le
        exact ⟨full, last, rfl, few, below, packed, by omega⟩

end PackedRoot

section

variable {height last : Nat} {children : List (Node α)}

theorem digit_nextLeaf_of_full (below : ∀ child ∈ children, Full height child)
    (place : last / width % leafCapacity (height + 1) =
      ((interior children).leaves (height + 1)).length) :
    digit (height + 1) last = children.length ∧ children.length < width := by
  have even := fun child hc => (below child hc).length_leaves
  have index : digit (height + 1) last = children.length := by
    rw [digit_leaf, place, leaves, Blocks.length_flatMap even,
      Nat.mul_div_cancel_left _ (leafCapacity_pos height)]
  exact ⟨index, index ▸ digit_lt (height + 1) last⟩

theorem digit_nextLeaf_of_room {full : List (Node α)} {child : Node α}
    (below : ∀ child ∈ full, Full height child)
    (space : (child.leaves height).length < leafCapacity height)
    (place : last / width % leafCapacity (height + 1) =
      ((interior (full ++ [child])).leaves (height + 1)).length) :
    digit (height + 1) last = full.length ∧
      last / width % leafCapacity height = (child.leaves height).length := by
  rw [length_leaves_snoc below] at place
  constructor
  · rw [digit_leaf, place, Nat.mul_add_div (leafCapacity_pos height), Nat.div_eq_of_lt space,
      Nat.add_zero]
  · rw [← leaf_mod_child, place, Nat.mul_add_mod, Nat.mod_eq_of_lt space]

end

theorem addLeaf_of_full {above last : Nat} {children : List (Node α)} {items : List α}
    (below : ∀ child ∈ children, Full above child) (count : items.length = width)
    (place : last / width % leafCapacity (above + 1) =
      ((interior children).leaves (above + 1)).length) :
    ∃ longer, addLeaf above children last (leaf items) = .ok longer ∧
      LeftPacked (above + 1) (.interior longer) ∧
      (interior longer).leaves (above + 1) =
        (interior children).leaves (above + 1) ++ [items] := by
  obtain ⟨index, bound⟩ := digit_nextLeaf_of_full below place
  have run : addLeaf above children last (leaf items) =
      .ok (children ++ [lift above (leaf items)]) := by
    cases above with
    | zero => rw [addLeaf, index, Chunk.put_length _ bound, lift]
    | succ above =>
      have absent : children[children.length]? = none := by simp
      simp only [addLeaf, index, absent, Chunk.put_length _ bound]
  refine ⟨_, run, .interior bound below (lift_leftPacked count above), ?_⟩
  rw [leaves, leaves, List.flatMap_append, List.flatMap_singleton, leaves_lift]

theorem addLeaf_eq {above last : Nat} {children : List (Node α)} {items : List α}
    (h : PackedRoot (above + 1) (.interior children)) (count : items.length = width)
    (place : last / width % leafCapacity (above + 1) =
      ((interior children).leaves (above + 1)).length) :
    ∃ longer, addLeaf above children last (leaf items) = .ok longer ∧
      LeftPacked (above + 1) (.interior longer) ∧
      (interior longer).leaves (above + 1) =
        (interior children).leaves (above + 1) ++ [items] := by
  -- Down the right edge of the tree: only the last child can have room.
  induction above generalizing children with
  | zero =>
    rcases h.room with below | ⟨full, child, rfl, few, below, packed, space⟩
    · exact addLeaf_of_full below count place
    · have least := packed.length_leaves_pos
      rw [leafCapacity] at space
      omega
  | succ above ih =>
    rcases h.room with below | ⟨full, child, rfl, few, below, packed, space⟩
    · exact addLeaf_of_full below count place
    · obtain ⟨index, inner⟩ := digit_nextLeaf_of_room below space place
      cases child with
      | leaf _ => cases packed
      | interior grandchildren =>
        obtain ⟨longer, run, longerPacked, added⟩ := ih (.inr packed) inner
        have present : (full ++ [interior grandchildren])[full.length]? =
            some (interior grandchildren) := by simp
        have bound : full.length < (full ++ [interior grandchildren]).length := by simp
        refine ⟨full ++ [.interior longer], ?_, .interior few below longerPacked, ?_⟩
        · simp only [addLeaf, index, present, run, bind, Except.bind, Chunk.put_of_lt _ bound]
          simp
        · rw [leaves, leaves, List.flatMap_append, List.flatMap_append, List.flatMap_singleton,
            List.flatMap_singleton, added, List.append_assoc]

end Node

end PersistentCollections
