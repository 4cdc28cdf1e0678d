import PersistentCollections.Access
import PersistentCollections.Event
import PersistentCollections.Trie

/-! A persistent vector: a tree of full leaves and, after it, a tail of up to 32
elements. Appending fills the tail; a full tail moves into the tree as a new leaf
only when a further element has to go somewhere, so the tail is empty only if the
vector is. Every operation leaves its argument as it was.

The operations ending in `Checked` report a breach of the tree's shape. No vector
made by the operations below has one; the public operations leave a vector that
does as it is, and read nothing from it. -/

namespace PersistentCollections

structure TrieVector (α : Type) where
  root : Node α
  tail : List α
  length : Nat
  /-- The height of the root. The root is never a leaf, so this is never 0. -/
  height : Nat

namespace TrieVector

def empty : TrieVector α := ⟨.interior [], [], 0, 1⟩

instance : Inhabited (TrieVector α) := ⟨empty⟩

def isEmpty (v : TrieVector α) : Bool := v.length == 0

def toList (v : TrieVector α) : List α := v.root.toList v.height ++ v.tail

def tailOffset (v : TrieVector α) : Nat :=
  if v.length < width then 0 else (v.length - 1) / width * width

/-- The leaf, or the tail, that holds `index`. -/
def leafFor (v : TrieVector α) (index : Nat) : Except Breach (List α) :=
  if v.tailOffset ≤ index then .ok v.tail else v.root.leafAt v.height index

def readChecked (v : TrieVector α) (index : Nat) : Except Breach α := do
  Chunk.entry (← v.leafFor index) (index % width)

def get? (v : TrieVector α) (index : Nat) : Option α :=
  if index < v.length then (v.readChecked index).toOption else none

def get (v : TrieVector α) (index : Nat) : Except AccessError α :=
  match v.get? index with
  | some a => .ok a
  | none => .error (.indexOutOfBounds index v.length)

def first? (v : TrieVector α) : Option α := v.get? 0

def last? (v : TrieVector α) : Option α :=
  if v.isEmpty then none else v.get? (v.length - 1)

def replaceChecked (v : TrieVector α) (index : Nat) (a : α) : Except Breach (TrieVector α) :=
  if v.tailOffset ≤ index then do
    return { v with tail := ← Chunk.put v.tail (index % width) a }
  else do
    return { v with root := ← v.root.replaceAt v.height index a }

def replace (v : TrieVector α) (index : Nat) (a : α) : TrieVector α :=
  match v.replaceChecked index a with
  | .ok w => w
  | .error _ => v

def set (v : TrieVector α) (index : Nat) (a : α) : Except AccessError (TrieVector α) := do
  checkIndex index v.length
  return v.replace index a

/-- Moves a full tail into the tree. An element has to follow at once. If the tree
is full at its height, it becomes the left half of a tree one higher. -/
def flushTailChecked (v : TrieVector α) : Except Breach (Logged (TrieVector α)) :=
  let node := Node.leaf v.tail
  if leafCapacity v.height < v.length / width then
    let root := .interior [v.root, .lift v.height node]
    .ok ⟨⟨root, [], v.length, v.height + 1⟩, [.rootGrew v.length (v.height + 1)]⟩
  else
    match v.root, v.height with
    | .interior children, above + 1 => do
      let children ← Node.addLeaf above children (v.length - 1) node
      return ⟨⟨.interior children, [], v.length, v.height⟩, []⟩
    | .interior _, 0 => .error .nodeTooLow
    | .leaf _, _ => .error .leafTooHigh

/-- Appends a batch, a tail at a time. -/
def appendChecked (v : TrieVector α) (events : List Event) :
    List α → Except Breach (Logged (TrieVector α))
  | [] => .ok ⟨v, events⟩
  | a :: rest => do
    let flushed ←
      if v.tail.length = width then v.flushTailChecked
      else if v.tail.length < width then .ok ⟨v, []⟩
      else .error .chunkOverfull
    let w := flushed.value
    let room := width - w.tail.length
    let fresh := a :: rest.take (room - 1)
    let longer := { w with tail := w.tail ++ fresh, length := w.length + fresh.length }
    appendChecked longer (events ++ flushed.events) (rest.drop (room - 1))
  termination_by items => items.length

def append (v : TrieVector α) (items : List α) : Logged (TrieVector α) :=
  match v.appendChecked [] items with
  | .ok r => r
  | .error _ => ⟨v, []⟩

def push (v : TrieVector α) (a : α) : Logged (TrieVector α) := v.append [a]

def ofList (items : List α) : Logged (TrieVector α) := empty.append items

def equal [BEq α] (v w : TrieVector α) : Bool :=
  v.length == w.length && v.toList == w.toList

instance [BEq α] : BEq (TrieVector α) := ⟨equal⟩

/-- Whether length, tail and tree agree with each other and the tree is no higher
than it has to be. -/
def check (v : TrieVector α) : Bool :=
  v.tail.length == v.length - v.tailOffset &&
  (v.isEmpty || !v.tail.isEmpty) &&
  v.root.size v.height == v.tailOffset &&
  (match v.root with
    | .leaf _ => false
    | .interior children => v.height ≤ 1 || 1 < children.length) &&
  v.root.packed v.height

end TrieVector

end PersistentCollections
