/-! The tree under a vector: leaves hold up to 32 elements, interior nodes up to
32 children, and all leaves lie at one height. A position is read from the root
down, one base-32 digit per level; the digit of height 0 is the place in the leaf.

Every walk checks what it relies on and stops with a `Breach` where the tree is
not the shape that the position promises. On a tree whose levels agree with its
height and that holds the position no walk breaches. -/

namespace PersistentCollections

def width : Nat := 32

/-- A place where a tree or a walk over it is not in the promised shape. -/
inductive Breach where
  /-- A leaf stands above the level of the leaves. -/
  | leafTooHigh
  /-- An interior node stands at the level of the leaves. -/
  | nodeTooLow
  | noSuchChild
  | noSuchEntry
  /-- An entry would be put further than one past the end of its chunk. -/
  | gapInChunk
  | chunkOverfull
  /-- More would be taken from a count than it holds. -/
  | countUnderflow
deriving DecidableEq

/-- The base-32 digit of `index` at `height`. -/
def digit (height index : Nat) : Nat := (index >>> (5 * height)) % width

theorem digit_lt (height index : Nat) : digit height index < width :=
  Nat.mod_lt _ (by decide)

@[simp] theorem digit_zero (index : Nat) : digit 0 index = index % width := rfl

theorem digit_succ (height index : Nat) :
    digit (height + 1) index = digit height (index / width) := by
  have five : index >>> 5 = index / width := Nat.shiftRight_eq_div_pow index 5
  rw [digit, digit, Nat.mul_succ, Nat.add_comm, Nat.shiftRight_add, five]

def leafCapacity : (height : Nat) → Nat
  | 0 => 1
  | height + 1 => width * leafCapacity height

namespace Chunk

def entry (entries : List α) (i : Nat) : Except Breach α :=
  match entries[i]? with
  | some a => .ok a
  | none => .error .noSuchEntry

/-- Replaces entry `i`, or adds it if `i` is one past the end and there is room. -/
def put (entries : List α) (i : Nat) (a : α) : Except Breach (List α) :=
  if i < entries.length then .ok (entries.set i a)
  else if entries.length < i then .error .gapInChunk
  else if entries.length < width then .ok (entries ++ [a])
  else .error .chunkOverfull

theorem put_of_lt {entries : List α} {i : Nat} (a : α) (h : i < entries.length) :
    put entries i a = .ok (entries.set i a) := if_pos h

theorem put_length {entries : List α} (a : α) (h : entries.length < width) :
    put entries entries.length a = .ok (entries ++ [a]) := by
  simp [put, h]

end Chunk

inductive Node (α : Type) where
  | leaf (items : List α)
  | interior (children : List (Node α))

namespace Node

def toList : Nat → Node α → List α
  | 0, leaf items => items
  | height + 1, interior children => children.flatMap (toList height)
  | _, _ => []

def size : Nat → Node α → Nat
  | 0, leaf items => items.length
  | height + 1, interior children => children.foldl (fun n child => n + size height child) 0
  | _, _ => 0

/-- The leaf below a node of this height on the way to `index`. -/
def leafAt : Nat → Node α → Nat → Except Breach (List α)
  | 0, leaf items, _ => .ok items
  | 0, interior _, _ => .error .nodeTooLow
  | _ + 1, leaf _, _ => .error .leafTooHigh
  | height + 1, interior children, index =>
    match children[digit (height + 1) index]? with
    | some child => leafAt height child index
    | none => .error .noSuchChild

def replaceAt : Nat → Node α → Nat → α → Except Breach (Node α)
  | 0, leaf items, index, a => do
    return leaf (← Chunk.put items (digit 0 index) a)
  | 0, interior _, _, _ => .error .nodeTooLow
  | _ + 1, leaf _, _, _ => .error .leafTooHigh
  | height + 1, interior children, index, a =>
    let i := digit (height + 1) index
    match children[i]? with
    | some child => do
      let child ← replaceAt height child index a
      return interior (← Chunk.put children i child)
    | none => .error .noSuchChild

/-- A node lifted to this height by interior nodes of one child each. -/
def lift : Nat → Node α → Node α
  | 0, node => node
  | height + 1, node => interior [lift height node]

/-- Adds a leaf on the right below an interior node of height `above + 1`, whose
children are given; `last` is the last index below the new leaf. -/
def addLeaf : (above : Nat) → List (Node α) → (last : Nat) → Node α →
    Except Breach (List (Node α))
  | 0, children, last, node => Chunk.put children (digit 1 last) node
  | above + 1, children, last, node =>
    let i := digit (above + 2) last
    match children[i]? with
    | some (interior grandchildren) => do
      let grandchildren ← addLeaf above grandchildren last node
      Chunk.put children i (interior grandchildren)
    | some (leaf _) => .error .leafTooHigh
    | none => Chunk.put children i (lift (above + 1) node)

/-- Whether all leaves below lie at height 0 and are full. -/
def packed : Nat → Node α → Bool
  | 0, leaf items => items.length == width
  | height + 1, interior children => children.all (packed height)
  | _, _ => false

end Node

end PersistentCollections
