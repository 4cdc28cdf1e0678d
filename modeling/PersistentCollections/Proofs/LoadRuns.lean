import PersistentCollections.Proofs.Distribution
import PersistentCollections.Proofs.MapHistory
import PersistentCollections.Proofs.VectorGrowth

/-! What a load policy sees of a map: the number of its items and that of its buckets. An
update changes the two numbers, and reports what it does, as they and the presence of the
key say. The keys themselves, their hashes and the order of the items have no part in it,
except that under a hash that tells equal keys apart fewer items may be left than are spread
anew. -/

namespace PersistentCollections

structure Load where
  items : Nat
  buckets : Nat
deriving DecidableEq

namespace Load

variable {π : Type} [LoadPolicy π]

def spread (p : π) (count items : Nat) : Logged Load :=
  ⟨⟨items, bucketCount p count⟩, TrieVector.growths 0 (bucketCount p count)⟩

@[simp] theorem spread_value (p : π) (count items : Nat) :
    (spread p count items).value = ⟨items, bucketCount p count⟩ :=
  rfl

def insert (p : π) (known : Bool) (l : Load) : Logged Load :=
  if !known && needsGrow p (l.items + 1) l.buckets then
    (spread p (l.items + 1) (l.items + 1)).bind fun larger =>
      ⟨larger, [.mapGrew larger.items l.buckets larger.buckets]⟩
  else
    .pure { l with items := if known then l.items else l.items + 1 }

def erase (p : π) (known : Bool) (l : Load) : Logged Load :=
  if known then
    if needsShrink p (l.items - 1) l.buckets then
      (spread p (l.items - 1) (l.items - 1)).bind fun smaller =>
        ⟨smaller, [.mapShrank smaller.items l.buckets smaller.buckets]⟩
    else
      .pure { l with items := l.items - 1 }
  else
    .pure l

/-- An insertion that leaves so many items where it spreads all of them anew. -/
def insertLeaving (p : π) (left : Nat) (known : Bool) (l : Load) : Logged Load :=
  if !known && needsGrow p (l.items + 1) l.buckets then
    (spread p (l.items + 1) left).bind fun larger =>
      ⟨larger, [.mapGrew larger.items l.buckets larger.buckets]⟩
  else
    .pure { l with items := if known then l.items else l.items + 1 }

def eraseLeaving (p : π) (left : Nat) (known : Bool) (l : Load) : Logged Load :=
  if known then
    if needsShrink p (l.items - 1) l.buckets then
      (spread p (l.items - 1) left).bind fun smaller =>
        ⟨smaller, [.mapShrank smaller.items l.buckets smaller.buckets]⟩
    else
      .pure { l with items := l.items - 1 }
  else
    .pure l

@[simp] theorem insertLeaving_known (p : π) (left : Nat) (l : Load) :
    insertLeaving p left true l = .pure l := by
  simp [insertLeaving]

@[simp] theorem eraseLeaving_absent (p : π) (left : Nat) (l : Load) :
    eraseLeaving p left false l = .pure l := by
  simp [eraseLeaving]

def insertAll (p : π) (known : List Bool) (l : Load) : Logged Load :=
  .fold (fun l known => insert p known l) l known

@[simp] theorem insert_known (p : π) (l : Load) : insert p true l = .pure l := by
  simp [insert]

@[simp] theorem erase_absent (p : π) (l : Load) : erase p false l = .pure l := by
  simp [erase]

@[simp] theorem insertAll_nil (p : π) (l : Load) : insertAll p [] l = .pure l := rfl

theorem insertAll_cons (p : π) (first : Bool) (rest : List Bool) (l : Load) :
    insertAll p (first :: rest) l = (insert p first l).bind (insertAll p rest) :=
  Logged.fold_cons ..

/-- Keys that are there already change nothing, so only the number of the new ones counts. -/
theorem insertAll_eq_new (p : π) (known : List Bool) (l : Load) :
    insertAll p known l = insertAll p (List.replicate (known.count false) false) l := by
  induction known generalizing l with
  | nil => rfl
  | cons first rest ih =>
    rw [insertAll_cons]
    cases first with
    | true =>
      rw [insert_known, List.count_cons_of_ne (by decide), ← ih]
      simp [Logged.bind]
    | false =>
      rw [List.count_cons_self, List.replicate_succ, insertAll_cons]
      exact congrArg _ (funext ih)

theorem insertAll_perm {known other : List Bool} (same : known.Perm other) (p : π) (l : Load) :
    insertAll p known l = insertAll p other l := by
  rw [insertAll_eq_new, same.count_eq, ← insertAll_eq_new]

end Load

namespace BucketMap

variable {π κ ν : Type} {hash : κ → UInt64} {m : BucketMap π κ ν}

def load (m : BucketMap π κ ν) : Load := ⟨m.length, m.buckets.length⟩

theorem empty_load (hash : κ → UInt64) (policy : π) :
    (empty hash policy : BucketMap π κ ν).load = ⟨0, 1⟩ := by
  obtain ⟨wellFormed, one⟩ := empty_buckets (κ := κ) (ν := ν) hash policy
  rw [load, ← wellFormed.length_toList, one]
  rfl

variable [BEq κ] [LoadPolicy π]

theorem length_buckets_spread (hash : κ → UInt64) (policy : π) (count : Nat)
    (items : List (κ × ν)) :
    (spread hash policy count items).value.buckets.length = bucketCount policy count := by
  rw [← (spread_tallied hash policy count items).1.tabled.table_length, table_spread]
  simp [Spread.empty]

theorem spread_events (hash : κ → UInt64) (policy : π) (count : Nat) (items : List (κ × ν)) :
    (spread hash policy count items).events = TrieVector.growths 0 (bucketCount policy count) := by
  rw [spread, Logged.map_events, TrieVector.ofList_events]
  simp [Spread.empty]

theorem spread_load (hash : κ → UInt64) (policy : π) (count : Nat) (items : List (κ × ν)) :
    (spread hash policy count items).map load =
      Load.spread policy count (spread hash policy count items).value.length := by
  rw [Logged.map, load, Load.spread, length_buckets_spread, spread_events]

theorem Tabled.insert_load (h : m.Tabled) (k : κ) (v : ν) :
    (m.insert k v).map load = Load.insertLeaving m.policy
      (spread m.hash m.policy (m.length + 1) (m.toList ++ [(k, v)])).value.length
      (m.contains k) m.load := by
  have asked : (!m.contains k && needsGrow m.policy (m.load.items + 1) m.load.buckets) =
      m.growsOn k := rfl
  rw [Load.insertLeaving, asked, BucketMap.insert]
  cases grows : m.growsOn k with
  | true =>
    rw [if_pos rfl, if_pos rfl]
    exact congrArg
      (Logged.bind · fun l => ⟨l, [.mapGrew l.items m.buckets.length l.buckets]⟩)
      (spread_load m.hash m.policy (m.length + 1) (m.toList ++ [(k, v)]))
  | false =>
    obtain ⟨buckets, length⟩ := h.putInPlace_sizes k v
    simp [Logged.map, Logged.pure, load, buckets, length]

variable [EquivBEq κ]

theorem spread_length (lawful : Respects hash) (policy : π) (count : Nat) (items : List (κ × ν)) :
    (spread hash policy count items).value.length = (Association.insertAll [] items).length := by
  obtain ⟨wellFormed, contents⟩ := spread_eq lawful policy count items
  rw [← wellFormed.length_toList, contents.length_eq]

namespace Orderly

theorem erase_load (h : m.Orderly) (k : κ) :
    (m.erase k).map load = Load.eraseLeaving m.policy
      (spread m.hash m.policy (m.length - 1) (m.eraseInPlace k).toList).value.length
      (m.contains k) m.load := by
  cases known : m.contains k with
  | false => simp [BucketMap.erase, known, Logged.map, Logged.pure]
  | true =>
    obtain ⟨buckets, length⟩ := h.eraseInPlace_sizes known
    have asked : needsShrink m.policy (m.load.items - 1) m.load.buckets =
        (m.eraseInPlace k).sparse := (h.sparse_eraseInPlace known).symm
    rw [Load.eraseLeaving, if_pos rfl, asked]
    cases sparse : (m.eraseInPlace k).sparse with
    | true =>
      simp only [BucketMap.erase, known, sparse, if_true, length, buckets]
      exact congrArg
        (Logged.bind · fun l => ⟨l, [.mapShrank l.items m.buckets.length l.buckets]⟩)
        (spread_load m.hash m.policy (m.length - 1) (m.eraseInPlace k).toList)
    | false =>
      simp only [BucketMap.erase, known, sparse, if_true]
      simp [Logged.map, Logged.pure, load, buckets, length]

end Orderly

namespace WellFormed

theorem insert_load (h : m.WellFormed) (lawful : Respects m.hash) (k : κ) (v : ν) :
    (m.insert k v).map load = Load.insert m.policy (m.contains k) m.load := by
  rw [h.orderly.tabled.insert_load]
  cases known : m.contains k with
  | true => simp
  | false =>
    have distinct : Association.Distinct (m.toList ++ [(k, v)]) :=
      Bucket.distinct_concat h.placed.distinct (h.contains_eq lawful k ▸ known)
    rw [spread_length lawful, distinct.insertAll_nil.length_eq, List.length_append,
      h.length_toList]
    rfl

theorem erase_load (h : m.WellFormed) (lawful : Respects m.hash) (k : κ) :
    (m.erase k).map load = Load.erase m.policy (m.contains k) m.load := by
  rw [h.orderly.erase_load]
  cases known : m.contains k with
  | false => simp
  | true =>
    have left := (h.eraseInPlace_eq lawful k).1
    have distinct : Association.Distinct (m.eraseInPlace k).toList := left.placed.distinct
    rw [spread_length lawful, distinct.insertAll_nil.length_eq, left.length_toList,
      (h.orderly.eraseInPlace_sizes known).2]
    rfl

theorem contains_insert (h : m.WellFormed) (lawful : Respects m.hash) (k l : κ) (v : ν) :
    (m.insert k v).value.contains l = (k == l || m.contains l) := by
  have form : Represents m.hash m.policy m m.toList := ⟨h, rfl, rfl, .refl _⟩
  rw [contains, (form.answers lawful).after_insert, contains]
  cases k == l <;> rfl

theorem insertAll_load (h : m.WellFormed) (lawful : Respects m.hash) {items : List (κ × ν)}
    (distinct : Association.Distinct items) :
    (m.insertAll items).map load =
      Load.insertAll m.policy (items.map fun item => m.contains item.1) m.load := by
  induction items generalizing m with
  | nil => rfl
  | cons first rest ih =>
    obtain ⟨apart, distinct⟩ := List.pairwise_cons.1 distinct
    obtain ⟨hash, policy⟩ := insert_settings m first.1 first.2
    have made := h.insert_load lawful first.1 first.2
    have asked : rest.map (fun item => (m.insert first.1 first.2).value.contains item.1) =
        rest.map fun item => m.contains item.1 := by
      refine List.map_congr_left fun item member => ?_
      rw [h.contains_insert lawful, apart item member, Bool.false_or]
    have later := ih (h.insert_eq lawful first.1 first.2).1 (hash ▸ lawful) distinct
    rw [asked, policy] at later
    rw [List.map_cons, Load.insertAll_cons, ← made, BucketMap.insertAll, Logged.fold_cons]
    let reported := (m.insert first.1 first.2).events
    exact congrArg (fun r => (⟨r.value, reported ++ r.events⟩ : Logged Load)) later

end WellFormed

end BucketMap

end PersistentCollections
