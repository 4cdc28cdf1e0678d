import PersistentCollections.Event
import PersistentCollections.TrieVector

/-! Versions: vectors with the names of the two allocations that they consist of, the
root of the tree and the tail. An update gives a fresh name to what it makes anew and
keeps the names of what it shares, so two versions of one length with the same names
are the same version. Names are given out by a ledger that also takes down events. -/

namespace PersistentCollections

structure Stamp where
  root : Nat
  tail : Nat
deriving DecidableEq

/-- A collection with the names of the allocations of its vector. -/
structure Version (γ : Type) where
  value : γ
  stamp : Stamp

/-- The first name not given out yet, and the events so far, oldest first. -/
structure Ledger where
  next : Nat := 0
  events : List Event := []

abbrev Recording := StateM Ledger

def freshName : Recording Nat := modifyGet fun l => (l.next, { l with next := l.next + 1 })

def record (r : Logged α) : Recording α :=
  modifyGet fun l => (r.value, { l with events := l.events ++ r.events })

namespace Stamp

def fresh : Recording Stamp := do
  let root ← freshName
  let tail ← freshName
  return ⟨root, tail⟩

def afterReplace (s : Stamp) (v : TrieVector α) (index : Nat) : Recording Stamp := do
  if v.tailOffset ≤ index then return { s with tail := ← freshName }
  else return { s with root := ← freshName }

/-- The names after `before` was appended to. The root is a new one if a full tail
moved into the tree. -/
def afterAppend (s : Stamp) (before after : TrieVector α) : Recording Stamp := do
  if before.length = after.length then return s
  let tail ← freshName
  if before.tailOffset = after.tailOffset then return { s with tail }
  else return { root := ← freshName, tail }

end Stamp

/-- A value that was not made from an earlier version. -/
def Version.fresh (value : γ) : Recording (Version γ) := do return ⟨value, ← Stamp.fresh⟩

def Version.map (f : γ → δ) (x : Version γ) : Version δ := ⟨f x.value, x.stamp⟩

abbrev VectorVersion (α : Type) := Version (TrieVector α)

namespace VectorVersion

def empty : Recording (VectorVersion α) := Version.fresh .empty

def append (x : VectorVersion α) (items : List α) : Recording (VectorVersion α) := do
  let w ← record (x.value.append items)
  return ⟨w, ← x.stamp.afterAppend x.value w⟩

def push (x : VectorVersion α) (a : α) : Recording (VectorVersion α) := x.append [a]

def pushEach (x : VectorVersion α) (items : List α) : Recording (VectorVersion α) :=
  items.foldlM push x

def ofList (items : List α) : Recording (VectorVersion α) := do
  (← empty).append items

def replace (x : VectorVersion α) (index : Nat) (a : α) : Recording (VectorVersion α) := do
  return ⟨x.value.replace index a, ← x.stamp.afterReplace x.value index⟩

def set (x : VectorVersion α) (index : Nat) (a : α) :
    Except AccessError (Recording (VectorVersion α)) := do
  checkIndex index x.value.length
  return x.replace index a

def same (x y : VectorVersion α) : Bool :=
  x.value.length == y.value.length && x.stamp == y.stamp

/-- The same version, or equal elements. An element that differs from itself tells
the two apart. -/
def equal [BEq α] (x y : VectorVersion α) : Bool := x.same y || x.value.equal y.value

end VectorVersion

end PersistentCollections
