import PersistentCollections.BucketMap
import PersistentCollections.TrieVector.Cursor

/-! Walks over the items of a map. The buckets come from a walk over the bucket
vector, of either kind; buckets without items are passed over. The number of items
to come is counted apart from them. -/

namespace PersistentCollections

structure ItemCursor (γ κ ν : Type) where
  buckets : γ
  /-- What is left of the bucket that was entered last. -/
  items : Bucket κ ν
  remaining : Nat

namespace ItemCursor

variable {γ κ ν : Type} [Walk γ (Option (Bucket κ ν))]

/-- The next item, if it is in the bucket at hand or one of the next `ahead`. -/
def stepWithin : (ahead : Nat) → ItemCursor γ κ ν →
    Except Breach (Option (κ × ν) × ItemCursor γ κ ν)
  | _, ⟨buckets, item :: items, remaining⟩ =>
    if remaining = 0 then .error .countUnderflow
    else .ok (some item, ⟨buckets, items, remaining - 1⟩)
  | 0, c => .ok (none, c)
  | ahead + 1, ⟨buckets, [], remaining⟩ => do
    match ← Walk.step buckets with
    | (none, buckets) => return (none, ⟨buckets, [], remaining⟩)
    | (some b, buckets) => stepWithin ahead ⟨buckets, Bucket.items b, remaining⟩

instance : Walk (ItemCursor γ κ ν) (κ × ν) where
  step c := c.stepWithin (Walk.remaining c.buckets + 1)
  remaining c := c.remaining

end ItemCursor

structure KeyCursor (γ κ ν : Type) where
  items : ItemCursor γ κ ν

namespace KeyCursor

variable {γ κ ν : Type} [Walk γ (Option (Bucket κ ν))]

instance : Walk (KeyCursor γ κ ν) κ where
  step c := do
    let (item, items) ← Walk.step c.items
    return (item.map Prod.fst, ⟨items⟩)
  remaining c := Walk.remaining c.items

end KeyCursor

namespace BucketMap

def cursor (m : BucketMap π κ ν) : ItemCursor (Cursor (Option (Bucket κ ν))) κ ν :=
  ⟨m.buckets.cursor, [], m.length⟩

def leafCursor (m : BucketMap π κ ν) : ItemCursor (LeafCursor (Option (Bucket κ ν))) κ ν :=
  ⟨m.buckets.leafCursor, [], m.length⟩

end BucketMap

end PersistentCollections
