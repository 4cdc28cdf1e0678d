import Mathlib.Algebra.BigOperators.Ring.List
import PersistentCollections.Proofs.ExactFactors
import PersistentCollections.Proofs.HashIndependence

/-! What rebuilding costs in the long run. A map that was just spread anew has as many
items as its buckets are given for; an insertion or an erasure moves it away from there by
one item, and it is not spread again before it has come far. So the distance is a potential
that pays for moving all items, and each step adds at most a constant to it. Under a hash
that tells equal keys apart fewer items may be left than are spread, and then it is not far
to the next rebuilding; but that one has fewer items to move. -/

namespace PersistentCollections

namespace Event

/-- The number of items that are spread anew. -/
def moved : Event → Nat
  | rootGrew .. => 0
  | mapGrew items .. | mapShrank items .. => items

def rebuilt : Event → Nat
  | rootGrew .. => 0
  | mapGrew .. | mapShrank .. => 1

def total (weight : Event → Nat) (events : List Event) : Nat := (events.map weight).sum

variable (weight : Event → Nat)

@[simp] theorem total_nil : total weight [] = 0 := rfl

@[simp] theorem total_singleton (e : Event) : total weight [e] = weight e := by simp [total]

@[simp] theorem total_append (first second : List Event) :
    total weight (first ++ second) = total weight first + total weight second := by
  simp [total]

theorem total_mul (n : Nat) (events : List Event) :
    total (fun e => n * weight e) events = n * total weight events :=
  List.sum_map_mul_left events weight n

end Event

open Event (total)

namespace Load

variable {π : Type} [LoadPolicy π] {p : π}

/-- What an event costs, what a step pays, and what is put aside at a load. -/
structure Account where
  weight : Event → Nat
  charge : Nat
  potential : Load → Nat

/-- How many items may be left of those that are spread anew: all, unless some are lost. -/
structure Left (lossless : Prop) (given left : Nat) : Prop where
  most : left ≤ given
  all : lossless → left = given

/-- No update costs more than it pays and takes from what was put aside. -/
structure Charged (lossless : Prop) (p : π) (a : Account) : Prop where
  insert : ∀ l left known, 0 < l.buckets → Left lossless (l.items + 1) left →
    total a.weight (insertLeaving p left known l).events +
      a.potential (insertLeaving p left known l).value ≤ a.potential l + a.charge
  erase : ∀ l left known, (known = true → 0 < l.items) → Left lossless (l.items - 1) left →
    total a.weight (eraseLeaving p left known l).events +
      a.potential (eraseLeaving p left known l).value ≤ a.potential l + a.charge

theorem total_spread {weight : Event → Nat}
    (free : ∀ length height, weight (.rootGrew length height) = 0) (count items : Nat) :
    total weight (spread p count items).events = 0 := by
  refine List.sum_eq_zero fun n member => ?_
  obtain ⟨e, reported, rfl⟩ := List.mem_map.1 member
  obtain ⟨length, height, rfl⟩ := TrieVector.rootGrew_of_mem_growths reported
  exact free length height

end Load

namespace ExactFactors

theorem needsGrow_default (items buckets : Nat) :
    needsGrow default items buckets = decide (8 * buckets < items) := by
  rw [Bool.eq_iff_iff, decide_eq_true_iff, ← not_iff_not, Bool.not_eq_true, needsGrow_eq_false_iff,
    not_lt, Nat.mul_comm]
  change (items : ℚ) ≤ buckets * (8 : Nat) ↔ _
  norm_cast

theorem needsShrink_default (items buckets : Nat) :
    needsShrink default items buckets = decide (1 < buckets ∧ items < 2 * buckets) := by
  rw [Bool.eq_iff_iff, decide_eq_true_iff, ← not_iff_not, Bool.not_eq_true,
    needsShrink_eq_false_iff, not_and, not_lt, Nat.mul_comm]
  change (1 < buckets → (buckets * (2 : Nat) : ℚ) ≤ items) ↔ _
  norm_cast

open Load (Account Charged Left)

structure Pays (lossless : Prop) (a : Account) : Prop where
  free : ∀ length height, a.weight (.rootGrew length height) = 0
  more : ∀ n b, a.potential ⟨n + 1, b⟩ ≤ a.potential ⟨n, b⟩ + a.charge
  less : ∀ n b, a.potential ⟨n - 1, b⟩ ≤ a.potential ⟨n, b⟩ + a.charge
  grow : ∀ n b left, 0 < b → 8 * b < n + 1 → Left lossless (n + 1) left →
    a.weight (.mapGrew left b ((n + 1) / 5 + 1)) + a.potential ⟨left, (n + 1) / 5 + 1⟩ ≤
      a.potential ⟨n, b⟩ + a.charge
  shrink : ∀ n b left, 0 < n → 1 < b → n - 1 < 2 * b → Left lossless (n - 1) left →
    a.weight (.mapShrank left b ((n - 1) / 5 + 1)) + a.potential ⟨left, (n - 1) / 5 + 1⟩ ≤
      a.potential ⟨n, b⟩ + a.charge

theorem Pays.charged {lossless : Prop} {a : Account} (pays : Pays lossless a) :
    Charged lossless default a where
  insert l left known pos kept := by
    cases known with
    | true => simp
    | false =>
      by_cases full : 8 * l.buckets < l.items + 1
      · simpa [Load.insertLeaving, needsGrow_default, full, Load.total_spread pays.free,
          bucketCount_default] using pays.grow l.items l.buckets left pos full kept
      · simpa [Load.insertLeaving, needsGrow_default, full] using pays.more l.items l.buckets
  erase l left known some kept := by
    cases known with
    | false => simp
    | true =>
      by_cases few : 1 < l.buckets ∧ l.items - 1 < 2 * l.buckets
      · simpa [Load.eraseLeaving, needsShrink_default, few, Load.total_spread pays.free,
          bucketCount_default] using pays.shrink l.items l.buckets left (some rfl) few.1 few.2 kept
      · simpa [Load.eraseLeaving, needsShrink_default, few] using pays.less l.items l.buckets

/-- Eight for each step pay three for each item that is moved. Above five items for each
bucket, eight are put aside for an item, and at eight items for each bucket these make three
for all of them. Below, six for each bucket are put aside once there are two items for it, but
never more than three for an item, so that a loss of items puts nothing aside. -/
def movedAccount : Account where
  weight e := 3 * e.moved
  charge := 8
  potential l := (8 * l.items - (40 * l.buckets + 5)) +
    (min (3 * l.items) (22 * l.buckets - 8 * l.items) - 11)

theorem moved_pays (lossless : Prop) : Pays lossless movedAccount where
  free _ _ := rfl
  more n b := by
    simp only [movedAccount]
    omega
  less n b := by
    simp only [movedAccount]
    omega
  grow n b left pos full kept := by
    have most := kept.most
    simp only [movedAccount, Event.moved]
    omega
  shrink n b left some several few kept := by
    have most := kept.most
    simp only [movedAccount, Event.moved]
    omega

/-- One for each step pays two for each rebuilding. Put aside is the distance to four items
for each bucket, as far as there are so many items. -/
def rebuiltAccount : Account where
  weight e := 2 * e.rebuilt
  charge := 1
  potential l := (l.items + 1 - 4 * l.buckets) + min l.items (4 * l.buckets - (l.items + 1))

theorem rebuilt_pays (lossless : Prop) : Pays lossless rebuiltAccount where
  free _ _ := rfl
  more n b := by
    simp only [rebuiltAccount]
    omega
  less n b := by
    simp only [rebuiltAccount]
    omega
  grow n b left pos full kept := by
    have most := kept.most
    simp only [rebuiltAccount, Event.rebuilt]
    omega
  shrink n b left some several few kept := by
    have most := kept.most
    simp only [rebuiltAccount, Event.rebuilt]
    omega

/-- Where no items are lost, the items are as many as the buckets are given for behind each
rebuilding and not before it, and this is enough to put aside. -/
def losslessAccount : Account where
  weight e := 2 * e.rebuilt
  charge := 1
  potential l := min 1 ((l.items + 1 - 5 * l.buckets) + (5 * (l.buckets - 1) - l.items))

theorem lossless_pays {lossless : Prop} (none : lossless) : Pays lossless losslessAccount where
  free _ _ := rfl
  more n b := by
    simp only [losslessAccount]
    omega
  less n b := by
    simp only [losslessAccount]
    omega
  grow n b left pos full kept := by
    have all := kept.all none
    simp only [losslessAccount, Event.rebuilt]
    omega
  shrink n b left some several few kept := by
    have all := kept.all none
    simp only [losslessAccount, Event.rebuilt]
    omega

end ExactFactors

namespace BucketMap

variable {π κ ν : Type} [BEq κ] [LoadPolicy π] {hash : κ → UInt64} {policy : π}
  {a : Load.Account} {m : BucketMap π κ ν}

/-- The number of insertions and erasures that an update consists of. -/
def Update.calls : Update κ ν → Nat
  | .insert .. | .erase .. => 1
  | .insertAll items => items.length

def calls (updates : List (Update κ ν)) : Nat := (updates.map Update.calls).sum

def updateAll (m : BucketMap π κ ν) (updates : List (Update κ ν)) : Logged (BucketMap π κ ν) :=
  .fold update m updates

section

variable [EquivBEq κ]

theorem Reachable.insert_load (h : m.Reachable hash policy) (k : κ) (v : ν) :
    ∃ left, Load.Left (Respects hash) (m.length + 1) left ∧
      (m.insert k v).map load = Load.insertLeaving policy left (m.contains k) m.load := by
  by_cases lawful : Respects hash
  · obtain ⟨_, wellFormed, rfl, rfl, _⟩ := h.represents lawful
    exact ⟨m.length + 1, ⟨Nat.le_refl _, fun _ => rfl⟩, wellFormed.insert_load lawful k v⟩
  · obtain ⟨orderly, rfl, rfl⟩ := h.orderly
    have most := (spread_orderly m.hash m.policy (m.length + 1) (m.toList ++ [(k, v)])).2
    rw [List.length_append, orderly.length_toList] at most
    exact ⟨_, ⟨most, (absurd · lawful)⟩, orderly.tabled.insert_load k v⟩

theorem Reachable.erase_load (h : m.Reachable hash policy) (k : κ) :
    ∃ left, Load.Left (Respects hash) (m.length - 1) left ∧
      (m.erase k).map load = Load.eraseLeaving policy left (m.contains k) m.load := by
  by_cases lawful : Respects hash
  · obtain ⟨_, wellFormed, rfl, rfl, _⟩ := h.represents lawful
    exact ⟨m.length - 1, ⟨Nat.le_refl _, fun _ => rfl⟩, wellFormed.erase_load lawful k⟩
  · obtain ⟨orderly, rfl, rfl⟩ := h.orderly
    have load := orderly.erase_load k
    cases known : m.contains k with
    | false =>
      rw [known, Load.eraseLeaving_absent] at load
      exact ⟨m.length - 1, ⟨Nat.le_refl _, fun _ => rfl⟩, by rw [load, Load.eraseLeaving_absent]⟩
    | true =>
      have most := (spread_orderly m.hash m.policy (m.length - 1) (m.eraseInPlace k).toList).2
      rw [(orderly.eraseInPlace k).1.length_toList, (orderly.eraseInPlace_sizes known).2] at most
      exact ⟨_, ⟨most, (absurd · lawful)⟩, known ▸ load⟩

end

structure Paid (hash : κ → UInt64) (policy : π) (a : Load.Account) (m : BucketMap π κ ν)
    (calls : Nat) (r : Logged (BucketMap π κ ν)) : Prop where
  reachable : r.value.Reachable hash policy
  bound : total a.weight r.events + a.potential r.value.load ≤ a.potential m.load + a.charge * calls

namespace Paid

theorem bind {first second : Nat} {r : Logged (BucketMap π κ ν)}
    {f : BucketMap π κ ν → Logged (BucketMap π κ ν)} (start : Paid hash policy a m first r)
    (next : Paid hash policy a r.value second (f r.value)) :
    Paid hash policy a m (first + second) (r.bind f) := by
  refine ⟨next.reachable, ?_⟩
  have before := start.bound
  have behind := next.bound
  rw [Logged.bind_events, Logged.bind_value, Event.total_append, Nat.mul_add]
  omega

theorem fold {σ : Type} {step : BucketMap π κ ν → σ → Logged (BucketMap π κ ν)} {cost : σ → Nat}
    (paid : ∀ (m : BucketMap π κ ν) x, m.Reachable hash policy →
      Paid hash policy a m (cost x) (step m x))
    (start : m.Reachable hash policy) (steps : List σ) :
    Paid hash policy a m (steps.map cost).sum (.fold step m steps) := by
  induction steps generalizing m with
  | nil => exact ⟨start, by simp⟩
  | cons x rest ih =>
    rw [Logged.fold_cons, List.map_cons, List.sum_cons]
    have first := paid m x start
    exact first.bind (ih first.reachable)

variable [EquivBEq κ] (charged : Load.Charged (Respects hash) policy a)
  (h : m.Reachable hash policy)

include charged h

theorem insert (k : κ) (v : ν) : Paid hash policy a m 1 (m.insert k v) := by
  obtain ⟨left, kept, load⟩ := h.insert_load k v
  have step := charged.insert m.load left (m.contains k) h.orderly.1.buckets_pos kept
  rw [← load, ← Nat.mul_one a.charge] at step
  exact ⟨h.insert k v, step⟩

theorem erase (k : κ) : Paid hash policy a m 1 (m.erase k) := by
  obtain ⟨left, kept, load⟩ := h.erase_load k
  have step := charged.erase m.load left (m.contains k) h.orderly.1.length_pos kept
  rw [← load, ← Nat.mul_one a.charge] at step
  exact ⟨h.erase k, step⟩

theorem update (u : Update κ ν) : Paid hash policy a m u.calls (m.update u) := by
  cases u with
  | insert k v => exact insert charged h k v
  | erase k => exact erase charged h k
  | insertAll items =>
    have run : Paid hash policy a m (items.map fun _ => 1).sum (m.insertAll items) :=
      fold (fun _ item known => insert charged known item.1 item.2) h items
    rwa [List.map_const', List.sum_replicate_nat, Nat.mul_one] at run

theorem updateAll (updates : List (Update κ ν)) :
    Paid hash policy a m (calls updates) (m.updateAll updates) :=
  fold (fun _ u known => update charged known u) h updates

end Paid

/-- However insertions and erasures come, and whatever the hash, three items are moved for
eight calls at most. Whatever came before, there is no rebuilding at every step for long, and
not more often than at every second step if equal keys have equal hashes. -/
theorem rebuilding_amortized [EquivBEq κ] (hash : κ → UInt64) (updates : List (Update κ ν)) :
    let run := (empty hash ExactFactors.default).updateAll updates
    3 * total Event.moved run.events ≤ 8 * calls updates ∧
    ∀ more : List (Update κ ν),
      let rebuilt := total Event.rebuilt (run.value.updateAll more).events
      2 * rebuilt ≤ calls more + run.value.length ∧
        (Respects hash → 2 * rebuilt ≤ calls more + 1) := by
  intro run
  have moved : Paid hash ExactFactors.default ExactFactors.movedAccount _ (calls updates) run :=
    Paid.updateAll (ExactFactors.moved_pays _).charged .empty updates
  have later {a : Load.Account} (pays : ExactFactors.Pays (Respects hash) a)
      (more : List (Update κ ν)) := (Paid.updateAll pays.charged moved.reachable more).bound
  refine ⟨?_, fun more => ⟨?_, fun lawful => ?_⟩⟩
  · have paid := moved.bound
    simp only [ExactFactors.movedAccount, empty_load, Event.total_mul] at paid
    omega
  · have pos : 0 < run.value.load.buckets := moved.reachable.orderly.1.buckets_pos
    have same : run.value.load.items = run.value.length := rfl
    have paid := later (ExactFactors.rebuilt_pays _) more
    simp only [ExactFactors.rebuiltAccount, Event.total_mul] at paid
    omega
  · have paid := later (ExactFactors.lossless_pays lawful) more
    simp only [ExactFactors.losslessAccount, Event.total_mul] at paid
    omega

theorem rebuilding_amortized_ninth :
    Respects (crc32Of : FixedInt .i64 → UInt64) ∧
      let items : List (FixedInt .i64 × Nat) := (List.range 9).map fun n : Nat => (.wrap n, n)
      let run := (empty crc32Of ExactFactors.default).updateAll [.insertAll items]
      let more := run.value.updateAll [.erase (.wrap 0), .insert (.wrap 0) 0]
      total Event.moved run.events = 9 ∧ 3 * total Event.moved run.events ≤ 8 * 9 ∧
        2 * total Event.rebuilt more.events ≤ 2 + run.value.length ∧
        2 * total Event.rebuilt more.events ≤ 3 := by
  have lawful : Respects (crc32Of : FixedInt .i64 → UInt64) :=
    fun _ _ equal => congrArg crc32Of (eq_of_beq equal)
  refine ⟨lawful, ?_⟩
  intro items run more
  obtain ⟨moved, rebuilt⟩ := rebuilding_amortized crc32Of [.insertAll items]
  obtain ⟨few, fewer⟩ := rebuilt [.erase (.wrap 0), .insert (.wrap 0) 0]
  refine ⟨?_, moved, few, fewer lawful⟩
  have distinct : Association.Distinct items := by
    simp only [Association.Distinct, items]
    decide
  let start : BucketMap ExactFactors (FixedInt .i64) Nat := empty crc32Of .default
  have wellFormed : start.WellFormed := empty_wellFormed crc32Of ExactFactors.default
  have new : items.map (fun item => start.contains item.1) = List.replicate 9 false := by
    simp [wellFormed.contains_eq lawful, toList_empty, Bucket.contains, items, start]
  have load := wellFormed.insertAll_load lawful distinct
  rw [new, empty_load] at load
  have events : run.events =
      (Load.insertAll ExactFactors.default (List.replicate 9 false) ⟨0, 1⟩).events := by
    simp only [run, updateAll, Logged.fold_cons, update, Logged.fold_nil, Logged.bind_events,
      Logged.pure_events, List.append_nil]
    exact congrArg Logged.events load
  have free : ∀ length height, Event.moved (.rootGrew length height) = 0 := fun _ _ => rfl
  rw [events]
  simp [List.replicate, Load.insertAll_cons, Load.insert, ExactFactors.needsGrow_default,
    Load.total_spread free, Event.moved]

end BucketMap

end PersistentCollections
