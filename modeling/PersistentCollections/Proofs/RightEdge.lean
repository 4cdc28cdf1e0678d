import PersistentCollections.Proofs.VectorCanonical
import PersistentCollections.Proofs.VectorGrowth

/-! Where a new leaf goes. Adding one takes its way down from the digits of the last index
below it, which counts from the start of the whole tree, and not from the nodes that it
comes by. The two agree at every node on the way: the digit names the last child as long as
that has room, and the place behind the children once all of them are full, also where
digits have just rolled over to zero. -/

namespace PersistentCollections.Node

variable {α : Type}

/-- The nodes that a leaf with this last index is added below, by their heights less one and
their children: first the node itself, then one child of each. -/
inductive Visits (last above : Nat) (children : List (Node α)) : Nat → List (Node α) → Prop
  | start : Visits last above children above children
  | child {below : Nat} {inner grandchildren : List (Node α)} :
      Visits last above children (below + 1) inner →
      inner[digit (below + 2) last]? = some (interior grandchildren) →
      Visits last above children below grandchildren

/-- The place of the last of these children while it has room, and else the place behind
all of them, which a node then has. -/
structure AimsRight (height : Nat) (children : List (Node α)) (i : Nat) : Prop where
  of_room : ∀ (full : List (Node α)) (child : Node α), children = full ++ [child] →
    (child.leaves height).length < leafCapacity height → i = full.length
  of_full : (∀ child ∈ children.getLast?, (child.leaves height).length = leafCapacity height) →
    i = children.length ∧ children.length < width

/-- The next leaf below a node of height `above + 1` with these children is the one that ends
with the index `last`. -/
structure Awaits (last above : Nat) (children : List (Node α)) : Prop where
  packed : PackedRoot (above + 1) (.interior children)
  place : last / width % leafCapacity (above + 1) =
    ((interior children).leaves (above + 1)).length

namespace Awaits

variable {last above : Nat} {children : List (Node α)}

theorem aimsRight (h : Awaits last above children) :
    AimsRight above children (digit (above + 1) last) := by
  rcases h.packed.room with below | ⟨full, child, rfl, few, below, packed, space⟩
  · refine ⟨fun full child split room => ?_, fun _ => digit_nextLeaf_of_full below h.place⟩
    have member : child ∈ children := by simp [split]
    exact absurd (below child member).length_leaves (Nat.ne_of_lt room)
  · obtain ⟨index, -⟩ := digit_nextLeaf_of_room below space h.place
    refine ⟨fun _ _ split _ => ?_, fun filled => ?_⟩
    · rw [index, (List.append_inj' split rfl).1]
    · exact absurd (filled child (by simp)) (Nat.ne_of_lt space)

theorem child {grandchildren : List (Node α)} (h : Awaits last (above + 1) children)
    (found : children[digit (above + 2) last]? = some (interior grandchildren)) :
    Awaits last above grandchildren := by
  rcases h.packed.room with below | ⟨full, child, rfl, few, below, packed, space⟩
  · obtain ⟨behind, -⟩ := digit_nextLeaf_of_full below h.place
    rw [behind, List.getElem?_eq_none (Nat.le_refl _)] at found
    cases found
  · obtain ⟨index, place⟩ := digit_nextLeaf_of_room below space h.place
    rw [index, List.getElem?_concat_length] at found
    obtain rfl : child = interior grandchildren := Option.some.inj found
    exact ⟨.inr packed, place⟩

theorem visits {below : Nat} {inner : List (Node α)} (h : Awaits last above children)
    (visited : Visits last above children below inner) : Awaits last below inner := by
  induction visited with
  | start => exact h
  | child _ found ih => exact ih.child found

end Awaits

theorem eq_lift_iff {height : Nat} {node : Node α} {items : List α} (full : items.length = width) :
    LeftPacked height node ∧ node.leaves height = [items] ↔ node = lift height (leaf items) := by
  have lifted : LeftPacked height (lift height (leaf items)) := lift_leftPacked full height
  constructor
  · rintro ⟨packed, alone⟩
    exact packed.eq_of_leaves lifted (alone.trans (leaves_lift height items).symm)
  · rintro rfl
    exact ⟨lifted, leaves_lift height items⟩

/-- The leaf that ends with the index `length - 1` becomes the last one below a packed node of
any height that it is the next leaf of. The digits of the index lead along the right edge, and
a lifted leaf, by which the edge goes on, is the only packed node with that leaf alone. -/
theorem addLeaf_rightmost {above length : Nat} {children : List (Node α)} {items : List α}
    (packed : PackedRoot (above + 1) (.interior children)) (full : items.length = width)
    (place : ((length - 1) >>> 5) % 2 ^ (5 * (above + 1)) =
      ((interior children).leaves (above + 1)).length) :
    (∃ longer, addLeaf above children (length - 1) (leaf items) = .ok longer ∧
      LeftPacked (above + 1) (.interior longer) ∧
      (interior longer).leaves (above + 1) =
        (interior children).leaves (above + 1) ++ [items]) ∧
    (∀ below inner, Visits (length - 1) above children below inner →
      AimsRight below inner (digit (below + 1) (length - 1))) ∧
    ∀ node : Node α, LeftPacked (above + 1) node ∧ node.leaves (above + 1) = [items] ↔
      node = lift (above + 1) (leaf items) := by
  have inTree : (length - 1) / width % leafCapacity (above + 1) =
      ((interior children).leaves (above + 1)).length := by
    rw [leafCapacity_eq_two_pow, ← place, Nat.shiftRight_eq_div_pow]
    rfl
  have awaits : Awaits (length - 1) above children := ⟨packed, inTree⟩
  exact ⟨addLeaf_eq packed full inTree, fun below inner visited => (awaits.visits visited).aimsRight,
    fun _ => eq_lift_iff full⟩

/-- Behind five full nodes of height 3 a sixth one has a full node of height 1 below it. The
digits of the next leaf are 0 at that node, whose only child has room, and 1 below it. -/
theorem addLeaf_rightmost_rollover :
    let items := List.range 32
    let whole : Node Nat := .interior (List.replicate 32 (.leaf items))
    let children := [interior [whole]]
    let length := 32 * (5 * 2 ^ 15 + 33)
    (PackedRoot 3 (.interior children) ∧ items.length = width ∧
      ((length - 1) >>> 5) % 2 ^ (5 * 3) = ((interior children).leaves 3).length) ∧
    (∃ longer, addLeaf 2 children (length - 1) (leaf items) = .ok longer ∧
      LeftPacked 3 (.interior longer) ∧
      (interior longer).leaves 3 = (interior children).leaves 3 ++ [items]) ∧
    digit 3 (length - 1) = 0 ∧ (digit 2 (length - 1) = 1 ∧ 1 < width) ∧
    ∀ node : Node Nat, LeftPacked 3 node ∧ node.leaves 3 = [items] ↔
      node = lift 3 (leaf items) := by
  intro items whole children length
  have count : items.length = width := List.length_range
  have wholeFull : Full 1 whole := by
    refine .interior List.length_replicate fun child member => ?_
    obtain rfl := List.eq_of_mem_replicate member
    exact .leaf count
  have inner : LeftPacked 2 (interior [whole]) :=
    @LeftPacked.interior Nat 1 [] whole (by decide) (by simp) wholeFull.leftPacked
  have packed : PackedRoot 3 (.interior children) :=
    .inr (@LeftPacked.interior Nat 2 [] _ (by decide) (by simp) inner)
  have innerLeaves : ((interior [whole]).leaves 2).length = 32 := by
    rw [leaves, List.flatMap_singleton, wholeFull.length_leaves]
    rfl
  have place : ((length - 1) >>> 5) % 2 ^ (5 * 3) = ((interior children).leaves 3).length := by
    rw [leaves, List.flatMap_singleton, innerLeaves]
    decide
  obtain ⟨added, aims, edge⟩ := addLeaf_rightmost packed count place
  have root : digit 3 (length - 1) = 0 :=
    (aims 2 children .start).of_room [] _ rfl (by rw [innerLeaves]; decide)
  have below : Visits (length - 1) 2 children 1 [whole] := .child .start (by rw [root]; rfl)
  have behind : digit 2 (length - 1) = 1 ∧ 1 < width :=
    (aims 1 [whole] below).of_full (by simpa using wholeFull.length_leaves)
  exact ⟨⟨packed, count, place⟩, added, root, behind, edge⟩

end PersistentCollections.Node
