import PersistentCollections.TrieVector
import PersistentCollections.Walk

/-! Walks over a range of a vector. A `Cursor` gives out items from both ends and
keeps the leaf under each end, so that the tree is searched once per leaf. A
`LeafCursor` goes forward only and copies what it needs of one leaf at a time. -/

namespace PersistentCollections

structure Cursor (α : Type) where
  vector : TrieVector α
  frontLeaf : List α
  backLeaf : List α
  /-- The indices to come are those from `front` up to but not including `back`. -/
  front : Nat
  back : Nat

namespace Cursor

def ofRangeChecked (v : TrieVector α) (start stop : Nat) : Except Breach (Cursor α) :=
  if start < stop then do
    return ⟨v, ← v.leafFor start, ← v.leafFor (stop - 1), start, stop⟩
  else
    .ok ⟨v, [], [], start, stop⟩

/-- The walk over a range that lies within the vector. -/
def ofRange (v : TrieVector α) (start stop : Nat) : Cursor α :=
  match ofRangeChecked v start stop with
  | .ok c => c
  | .error _ => ⟨v, [], [], stop, stop⟩

def remaining (c : Cursor α) : Nat := c.back - c.front

def step (c : Cursor α) : Except Breach (Option α × Cursor α) :=
  if c.front < c.back then do
    let leaf ← if c.front % width = 0 then c.vector.leafFor c.front else .ok c.frontLeaf
    let a ← Chunk.entry leaf (c.front % width)
    return (some a, { c with frontLeaf := leaf, front := c.front + 1 })
  else
    .ok (none, c)

def stepBack (c : Cursor α) : Except Breach (Option α × Cursor α) :=
  if c.front < c.back then do
    let last := c.back - 1
    let leaf ← if last % width = width - 1 then c.vector.leafFor last else .ok c.backLeaf
    let a ← Chunk.entry leaf (last % width)
    return (some a, { c with backLeaf := leaf, back := last })
  else
    .ok (none, c)

instance : Walk (Cursor α) α where
  step := step
  remaining := remaining

end Cursor

structure Reversed (α : Type) where
  cursor : Cursor α

namespace Reversed

instance : Walk (Reversed α) α where
  step c := do
    let (a, cursor) ← c.cursor.stepBack
    return (a, ⟨cursor⟩)
  remaining c := c.cursor.remaining

end Reversed

structure LeafCursor (α : Type) where
  vector : TrieVector α
  /-- The indices from `position` up to but not including `stop` are not copied yet. -/
  position : Nat
  stop : Nat
  copied : List α

namespace LeafCursor

def ofRange (v : TrieVector α) (start stop : Nat) : LeafCursor α := ⟨v, start, stop, []⟩

def remaining (c : LeafCursor α) : Nat := c.copied.length + (c.stop - c.position)

def step (c : LeafCursor α) : Except Breach (Option α × LeafCursor α) :=
  match c.copied with
  | a :: rest => .ok (some a, { c with copied := rest })
  | [] =>
    if c.position < c.stop then do
      let leaf ← c.vector.leafFor c.position
      let start := c.position / width * width
      let stop := min leaf.length (c.stop - start)
      if stop < c.position % width then .error .noSuchEntry
      let moved := { c with position := start + stop }
      match (leaf.take stop).drop (c.position % width) with
      | a :: rest => return (some a, { moved with copied := rest })
      | [] => return (none, moved)
    else
      .ok (none, c)

instance : Walk (LeafCursor α) α where
  step := step
  remaining := remaining

end LeafCursor

namespace TrieVector

def cursor (v : TrieVector α) : Cursor α := .ofRange v 0 v.length

def cursorOn (v : TrieVector α) (start stop : Nat) : Except AccessError (Cursor α) := do
  checkRange start stop v.length
  return .ofRange v start stop

def leafCursor (v : TrieVector α) : LeafCursor α := .ofRange v 0 v.length

end TrieVector

end PersistentCollections
