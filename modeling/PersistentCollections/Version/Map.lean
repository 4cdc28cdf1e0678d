import PersistentCollections.BucketMap
import PersistentCollections.Load.Words
import PersistentCollections.Version

/-! Versions of maps. A map is the same version as another if their bucket vectors
are: an update of one bucket renames what it replaces in the vector, and a map that
is spread anew has a vector of its own.

The operations ending in `Bounded` stop where memory has no room for the buckets that
items are to be spread over. Of several updates the earlier ones are done by then. -/

namespace PersistentCollections

abbrev Bounded := ExceptT CapacityError Recording

/-- An action that spreads so many items, if it spreads any. -/
def bounded (c : LoadFactors) (spread? : Option Nat) (action : Recording γ) : Bounded γ :=
  match spread? with
  | none => ExceptT.lift action
  | some items => if c.fits items then ExceptT.lift action else throw ⟨items⟩

abbrev MapVersion (π κ ν : Type) := Version (BucketMap π κ ν)

namespace MapVersion

variable {π κ ν : Type}

def empty (hash : κ → UInt64) (policy : π) : Recording (MapVersion π κ ν) :=
  Version.fresh (.empty hash policy)

def same (x y : MapVersion π κ ν) : Bool :=
  VectorVersion.same (x.map BucketMap.buckets) (y.map BucketMap.buckets)

variable [BEq κ]

def equal [BEq ν] (x y : MapVersion π κ ν) : Bool := x.same y || x.value.equal y.value

variable [LoadPolicy π]

def ofList (hash : κ → UInt64) (policy : π) (items : List (κ × ν)) :
    Recording (MapVersion π κ ν) := do
  Version.fresh (← record (BucketMap.ofList hash policy items))

def insert (x : MapVersion π κ ν) (k : κ) (v : ν) : Recording (MapVersion π κ ν) := do
  let m := x.value
  let w ← record (m.insert k v)
  if m.growsOn k then Version.fresh w
  else return ⟨w, ← x.stamp.afterReplace m.buckets (m.place k)⟩

def erase (x : MapVersion π κ ν) (k : κ) : Recording (MapVersion π κ ν) := do
  let m := x.value
  let w ← record (m.erase k)
  if !m.contains k then return x
  let stamp ← x.stamp.afterReplace m.buckets (m.place k)
  if (m.eraseInPlace k).sparse then Version.fresh w
  else return ⟨w, stamp⟩

def insertAll (x : MapVersion π κ ν) (items : List (κ × ν)) : Recording (MapVersion π κ ν) :=
  items.foldlM (fun x item => x.insert item.1 item.2) x

def eraseAll (x : MapVersion π κ ν) (keys : List κ) : Recording (MapVersion π κ ν) :=
  keys.foldlM erase x

def ofListBounded (hash : κ → UInt64) (c : LoadFactors) (items : List (κ × ν)) :
    Bounded (MapVersion LoadFactors κ ν) :=
  bounded c (some items.length) (ofList hash c items)

def insertBounded (x : MapVersion LoadFactors κ ν) (k : κ) (v : ν) :
    Bounded (MapVersion LoadFactors κ ν) :=
  bounded x.value.policy (x.value.spreadOnInsert? k) (x.insert k v)

def eraseBounded (x : MapVersion LoadFactors κ ν) (k : κ) : Bounded (MapVersion LoadFactors κ ν) :=
  bounded x.value.policy (x.value.spreadOnErase? k) (x.erase k)

def insertAllBounded (x : MapVersion LoadFactors κ ν) (items : List (κ × ν)) :
    Bounded (MapVersion LoadFactors κ ν) :=
  items.foldlM (fun x item => x.insertBounded item.1 item.2) x

def eraseAllBounded (x : MapVersion LoadFactors κ ν) (keys : List κ) :
    Bounded (MapVersion LoadFactors κ ν) :=
  keys.foldlM eraseBounded x

end MapVersion

end PersistentCollections
