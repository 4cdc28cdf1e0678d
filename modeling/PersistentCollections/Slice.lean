import PersistentCollections.TrieVector.Cursor

/-! Slices: windows on a vector. A slice shares the storage of its vector and is
updated like a vector of its own: an update returns a new slice over a new version
of the backing vector. Elements of the backing vector outside the window are never
seen; appending first overwrites those that stand behind the window. -/

namespace PersistentCollections

/-- The elements of `vector` from index `start` up to but not including `stop`. -/
structure Slice (α : Type) where
  vector : TrieVector α
  start : Nat
  stop : Nat

namespace Slice

def empty : Slice α := ⟨.empty, 0, 0⟩

def ofVector (v : TrieVector α) : Slice α := ⟨v, 0, v.length⟩

def ofList (items : List α) : Logged (Slice α) := (TrieVector.ofList items).map ofVector

def length (s : Slice α) : Nat := s.stop - s.start

def isEmpty (s : Slice α) : Bool := s.stop == s.start

def cursor (s : Slice α) : Cursor α := .ofRange s.vector s.start s.stop

def leafCursor (s : Slice α) : LeafCursor α := .ofRange s.vector s.start s.stop

def toList (s : Slice α) : List α := (Walk.rest s.cursor).1

def get (s : Slice α) (index : Nat) : Except AccessError α := do
  checkIndex index s.length
  s.vector.get (s.start + index)

/-- The part of a slice between two positions that count from its start. -/
def slice (s : Slice α) (start stop : Nat) : Except AccessError (Slice α) := do
  checkRange start stop s.length
  return ⟨s.vector, s.start + start, s.start + stop⟩

def set (s : Slice α) (index : Nat) (a : α) : Except AccessError (Slice α) := do
  checkIndex index s.length
  return { s with vector := s.vector.replace (s.start + index) a }

/-- Puts items over the elements from `stop` on, while there are any. Returns the
vector, the end of what was written, and the items left over. -/
def overwrite (v : TrieVector α) (stop : Nat) : List α → TrieVector α × Nat × List α
  | [] => (v, stop, [])
  | a :: rest =>
    if stop < v.length then overwrite (v.replace stop a) (stop + 1) rest
    else (v, stop, a :: rest)

def append (s : Slice α) (items : List α) : Logged (Slice α) :=
  let (v, stop, left) := overwrite s.vector s.stop items
  if stop = v.length then
    (v.append left).map fun w => ⟨w, s.start, w.length⟩
  else
    .pure ⟨v, s.start, stop⟩

def push (s : Slice α) (a : α) : Logged (Slice α) := s.append [a]

def equal [BEq α] (s t : Slice α) : Bool := s.length == t.length && s.toList == t.toList

instance [BEq α] : BEq (Slice α) := ⟨equal⟩

end Slice

def TrieVector.slice (v : TrieVector α) (start stop : Nat) : Except AccessError (Slice α) := do
  checkRange start stop v.length
  return ⟨v, start, stop⟩

end PersistentCollections
