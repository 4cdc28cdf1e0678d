import PersistentCollections.Proofs.LoadRuns
import PersistentCollections.Proofs.Reachable

/-! Runs over maps with different hashes. The items of the two maps lie in different
buckets and are listed in different orders, but the maps hold the same items, so each
update finds its key in both or in neither, and both have the same load, so both are
spread anew at the same steps and report the same. The number of buckets after a run
follows from the lengths on the way. -/

namespace PersistentCollections

namespace Load

variable {π : Type} [LoadPolicy π] (p : π)

/-- The number of buckets once there is one item more, so many with it. -/
def bucketsOnMore (buckets items : Nat) : Nat :=
  if needsGrow p items buckets then bucketCount p items else buckets

/-- The number of buckets after an update from one length to another. Only an erasure makes
a map shorter, by one; otherwise new items come one after the other. -/
def bucketsAfter (buckets before after : Nat) : Nat :=
  if after < before then
    if needsShrink p after buckets then bucketCount p after else buckets
  else
    (List.range' (before + 1) (after - before)).foldl (bucketsOnMore p) buckets

def bucketsThrough : (buckets before : Nat) → List Nat → Nat
  | buckets, _, [] => buckets
  | buckets, before, after :: rest =>
    bucketsThrough (bucketsAfter p buckets before after) after rest

variable {p} {l : Load}

@[simp] theorem bucketsAfter_self (buckets length : Nat) :
    bucketsAfter p buckets length length = buckets := by
  simp [bucketsAfter]

theorem bucketsAfter_trans {buckets before middle after : Nat} (first : before ≤ middle)
    (second : middle ≤ after) :
    bucketsAfter p (bucketsAfter p buckets before middle) middle after =
      bucketsAfter p buckets before after := by
  have count : after - before = middle - before + (after - middle) := by omega
  have start : before + 1 + (middle - before) = middle + 1 := by omega
  simp only [bucketsAfter, Nat.not_lt.2 first, Nat.not_lt.2 second,
    Nat.not_lt.2 (first.trans second), if_false]
  rw [count, ← List.range'_append_1, List.foldl_append, start]

theorem insert_buckets (p : π) (known : Bool) (l : Load) :
    l.items ≤ (insert p known l).value.items ∧ (insert p known l).value.buckets =
      bucketsAfter p l.buckets l.items (insert p known l).value.items := by
  cases known with
  | true => simp
  | false =>
    cases grows : needsGrow p (l.items + 1) l.buckets <;>
      simp [insert, grows, bucketsAfter, bucketsOnMore]

theorem erase_buckets (p : π) {known : Bool} (some : known = true → 0 < l.items) :
    (erase p known l).value.buckets =
      bucketsAfter p l.buckets l.items (erase p known l).value.items := by
  cases known with
  | false => simp
  | true =>
    have less : l.items - 1 < l.items := Nat.sub_one_lt_of_lt (some rfl)
    cases few : needsShrink p (l.items - 1) l.buckets <;> simp [erase, few, bucketsAfter, less]

end Load

namespace BucketMap

variable {π κ ν : Type} [BEq κ] [LoadPolicy π] {hash hash' : κ → UInt64} {policy : π}
  {m w : BucketMap π κ ν}

inductive Update (κ ν : Type) where
  | insert (k : κ) (v : ν)
  | erase (k : κ)
  | insertAll (items : List (κ × ν))

def update (m : BucketMap π κ ν) : Update κ ν → Logged (BucketMap π κ ν)
  | .insert k v => m.insert k v
  | .erase k => m.erase k
  | .insertAll items => m.insertAll items

/-- A step of a history: a map without items, or an update of one that was made before. -/
inductive LoggedStep (κ ν : Type) where
  | new
  | update (source : Nat) (u : Update κ ν)

def loggedVersion (hash : κ → UInt64) (policy : π) (versions : List (Logged (BucketMap π κ ν))) :
    LoggedStep κ ν → Option (Logged (BucketMap π κ ν))
  | .new => some (.pure (empty hash policy))
  | .update source u => versions[source]?.bind fun r => some (r.value.update u)

/-! ### Coupled maps -/

/-- Two maps of the same items, under either hash, and of the same load. -/
structure Coupled (hash hash' : κ → UInt64) (policy : π) (m w : BucketMap π κ ν) : Prop where
  items : ∃ items, Represents hash policy m items ∧ Represents hash' policy w items
  load : m.load = w.load

structure CoupledResults (hash hash' : κ → UInt64) (policy : π)
    (r r' : Logged (BucketMap π κ ν)) : Prop where
  value : Coupled hash hash' policy r.value r'.value
  events : r.events = r'.events

omit [LoadPolicy π] in
theorem empty_coupled (hash hash' : κ → UInt64) (policy : π) :
    Coupled hash hash' policy (empty hash policy : BucketMap π κ ν) (empty hash' policy) :=
  ⟨⟨[], empty_represents hash policy, empty_represents hash' policy⟩,
    (empty_load hash policy).trans (empty_load hash' policy).symm⟩

omit [LoadPolicy π] in
theorem CoupledResults.bind {r r' : Logged (BucketMap π κ ν)}
    {f g : BucketMap π κ ν → Logged (BucketMap π κ ν)}
    (start : CoupledResults hash hash' policy r r')
    (next : ∀ m w, Coupled hash hash' policy m w → CoupledResults hash hash' policy (f m) (g w)) :
    CoupledResults hash hash' policy (r.bind f) (r'.bind g) := by
  obtain ⟨value, events⟩ := next _ _ start.value
  exact ⟨value, by simp [start.events, events]⟩

omit [LoadPolicy π] in
theorem CoupledResults.of_load {r r' : Logged (BucketMap π κ ν)}
    (items : ∃ items, Represents hash policy r.value items ∧ Represents hash' policy r'.value items)
    (loads : r.map load = r'.map load) : CoupledResults hash hash' policy r r' := by
  have events : (r.map load).events = (r'.map load).events := congrArg Logged.events loads
  exact ⟨⟨items, congrArg Logged.value loads⟩, events⟩

namespace Coupled

variable [EquivBEq κ] (lawful : Respects hash) (lawful' : Respects hash')

include lawful lawful'

omit [LoadPolicy π] in
theorem contains_eq (h : Coupled hash hash' policy m w) (k : κ) : m.contains k = w.contains k := by
  obtain ⟨⟨items, first, second⟩, _⟩ := h
  rw [contains, contains, first.find?_eq lawful, second.find?_eq lawful']

theorem insert (h : Coupled hash hash' policy m w) (k : κ) (v : ν) :
    CoupledResults hash hash' policy (m.insert k v) (w.insert k v) := by
  have known := h.contains_eq lawful lawful' k
  obtain ⟨⟨items, first, second⟩, load⟩ := h
  apply CoupledResults.of_load ⟨_, first.insert lawful k v, second.insert lawful' k v⟩
  obtain ⟨formM, rfl, rfl, _⟩ := first
  obtain ⟨formW, rfl, same, _⟩ := second
  rw [formM.insert_load lawful, formW.insert_load lawful', known, load, same]

theorem erase (h : Coupled hash hash' policy m w) (k : κ) :
    CoupledResults hash hash' policy (m.erase k) (w.erase k) := by
  have known := h.contains_eq lawful lawful' k
  obtain ⟨⟨items, first, second⟩, load⟩ := h
  apply CoupledResults.of_load ⟨_, first.erase lawful k, second.erase lawful' k⟩
  obtain ⟨formM, rfl, rfl, _⟩ := first
  obtain ⟨formW, rfl, same, _⟩ := second
  rw [formM.erase_load lawful, formW.erase_load lawful', known, load, same]

theorem insertAll (h : Coupled hash hash' policy m w) (items : List (κ × ν)) :
    CoupledResults hash hash' policy (m.insertAll items) (w.insertAll items) := by
  unfold BucketMap.insertAll
  induction items generalizing m w with
  | nil => exact ⟨h, rfl⟩
  | cons item rest ih =>
    rw [Logged.fold_cons, Logged.fold_cons]
    exact (h.insert lawful lawful' item.1 item.2).bind fun _ _ => ih

theorem update (h : Coupled hash hash' policy m w) (u : Update κ ν) :
    CoupledResults hash hash' policy (m.update u) (w.update u) := by
  cases u with
  | insert k v => exact h.insert lawful lawful' k v
  | erase k => exact h.erase lawful lawful' k
  | insertAll items => exact h.insertAll lawful lawful' items

end Coupled

theorem loggedVersion_simulates [EquivBEq κ] {versions others : List (Logged (BucketMap π κ ν))}
    (lawful : Respects hash) (lawful' : Respects hash')
    (h : List.Forall₂ (CoupledResults hash hash' policy) versions others) (step : LoggedStep κ ν) :
    Option.Rel (CoupledResults hash hash' policy) (loggedVersion hash policy versions step)
      (loggedVersion hash' policy others step) := by
  cases step with
  | new => exact .some ⟨empty_coupled hash hash' policy, rfl⟩
  | update source u =>
    apply History.rel_bind (History.rel_getElem? h source)
    exact fun _ _ old => .some (old.value.update lawful lawful' u)

/-! ### Numbers of buckets -/

def lengthsThrough (m : BucketMap π κ ν) : List (Update κ ν) → List Nat
  | [] => []
  | u :: rest => (m.update u).value.length :: lengthsThrough (m.update u).value rest

namespace WellFormed

variable [EquivBEq κ] (h : m.WellFormed) (lawful : Respects m.hash)

include h lawful

theorem buckets_insert (k : κ) (v : ν) :
    m.length ≤ (m.insert k v).value.length ∧ (m.insert k v).value.buckets.length =
      Load.bucketsAfter m.policy m.buckets.length m.length (m.insert k v).value.length := by
  have load : (m.insert k v).value.load = _ := congrArg Logged.value (h.insert_load lawful k v)
  have after := Load.insert_buckets m.policy (m.contains k) m.load
  rwa [← load] at after

theorem buckets_erase (k : κ) :
    (m.erase k).value.buckets.length =
      Load.bucketsAfter m.policy m.buckets.length m.length (m.erase k).value.length := by
  have load : (m.erase k).value.load = _ := congrArg Logged.value (h.erase_load lawful k)
  have some (known : m.contains k = true) : 0 < m.load.items := h.orderly.length_pos known
  have after := Load.erase_buckets m.policy some
  rwa [← load] at after

end WellFormed

section

variable [EquivBEq κ] (lawful : Respects hash)

include lawful

theorem Represents.buckets_insertAll {items : List (κ × ν)} (h : Represents hash policy m items)
    (more : List (κ × ν)) :
    m.length ≤ (m.insertAll more).value.length ∧ (m.insertAll more).value.buckets.length =
      Load.bucketsAfter policy m.buckets.length m.length (m.insertAll more).value.length := by
  rw [BucketMap.insertAll, Logged.fold_value]
  induction more generalizing m items with
  | nil => simp
  | cons item rest ih =>
    have first := h.insert lawful item.1 item.2
    obtain ⟨wellFormed, rfl, rfl, _⟩ := h
    obtain ⟨longer, step⟩ := wellFormed.buckets_insert lawful item.1 item.2
    obtain ⟨further, steps⟩ := ih first
    refine ⟨longer.trans further, steps.trans ?_⟩
    rw [step, Load.bucketsAfter_trans longer further]
    rfl

theorem Represents.buckets_update {items : List (κ × ν)} (h : Represents hash policy m items)
    (u : Update κ ν) :
    (∃ items, Represents hash policy (m.update u).value items) ∧
      (m.update u).value.buckets.length =
        Load.bucketsAfter policy m.buckets.length m.length (m.update u).value.length := by
  cases u with
  | insertAll more => exact ⟨⟨_, h.insertAll lawful more⟩, (h.buckets_insertAll lawful more).2⟩
  | insert k v =>
    refine ⟨⟨_, h.insert lawful k v⟩, ?_⟩
    obtain ⟨wellFormed, rfl, rfl, _⟩ := h
    exact (wellFormed.buckets_insert lawful k v).2
  | erase k =>
    refine ⟨⟨_, h.erase lawful k⟩, ?_⟩
    obtain ⟨wellFormed, rfl, rfl, _⟩ := h
    exact wellFormed.buckets_erase lawful k

theorem Represents.buckets_updates {items : List (κ × ν)} (h : Represents hash policy m items)
    (updates : List (Update κ ν)) :
    (updates.foldl (fun m u => (m.update u).value) m).buckets.length =
      Load.bucketsThrough policy m.buckets.length m.length (m.lengthsThrough updates) := by
  induction updates generalizing m items with
  | nil => rfl
  | cons u rest ih =>
    obtain ⟨⟨_, after⟩, buckets⟩ := h.buckets_update lawful u
    rw [List.foldl_cons, ih after, buckets]
    rfl

end

/-- One history under two hashes: the same lengths, the same numbers of buckets and the same
reports at each step. And from any map on, the lengths alone decide the number of buckets. -/
theorem hash_independent [EquivBEq κ] (lawful : Respects hash) (lawful' : Respects hash') (policy : π) :
    (∀ steps : List (LoggedStep κ ν),
      List.Forall₂ (fun r r' => r.value.length = r'.value.length ∧
          r.value.buckets.length = r'.value.buckets.length ∧ r.events = r'.events)
        (History.run (loggedVersion hash policy) [] steps)
        (History.run (loggedVersion hash' policy) [] steps)) ∧
    ∀ m : BucketMap π κ ν, m.Reachable hash policy → ∀ updates : List (Update κ ν),
      (updates.foldl (fun m u => (m.update u).value) m).buckets.length =
        Load.bucketsThrough policy m.buckets.length m.length (m.lengthsThrough updates) := by
  constructor
  · intro steps
    have coupled : List.Forall₂ (CoupledResults hash hash' policy)
        (History.run (loggedVersion hash policy) [] steps)
        (History.run (loggedVersion hash' policy) [] steps) :=
      History.run_simulates (fun _ _ step h => loggedVersion_simulates lawful lawful' h step) .nil
        steps
    apply coupled.imp
    intro r r' both
    have loads := both.value.load
    exact ⟨congrArg Load.items loads, congrArg Load.buckets loads, both.events⟩
  · intro m reachable updates
    obtain ⟨_, form⟩ := reachable.represents lawful
    exact form.buckets_updates lawful updates

theorem hash_independent_caseless :
    Respects (crc32Of : Caseless → UInt64) ∧ Respects (fun _ : Caseless => 0) ∧
      let words := [(Caseless.mk "Ab", 1), (⟨"c"⟩, 2), (⟨"aB"⟩, 3)]
      let r := (empty crc32Of LoadFactors.default).insertAll words
      let r' := (empty (fun _ => 0) LoadFactors.default).insertAll words
      r.value.length = r'.value.length ∧ r.value.buckets.length = r'.value.buckets.length ∧
        r.events = r'.events ∧ r.value.Reachable crc32Of .default ∧
        (r.value.erase ⟨"C"⟩).value.buckets.length =
          Load.bucketsThrough LoadFactors.default r.value.buckets.length r.value.length
            [(r.value.erase ⟨"C"⟩).value.length] := by
  have constant : Respects (fun _ : Caseless => 0) := fun _ _ _ => rfl
  refine ⟨crc32Of_respects, constant, ?_⟩
  intro words r r'
  obtain ⟨runs, lengths⟩ := hash_independent (ν := Nat) crc32Of_respects constant LoadFactors.default
  have both := runs [.new, .update 0 (.insertAll words)]
  have left : History.run (loggedVersion crc32Of LoadFactors.default) []
      [.new, .update 0 (.insertAll words)] = [.pure (empty crc32Of .default), r] := by
    simp [History.run, History.next, loggedVersion, update, r]
  have right : History.run (loggedVersion (fun _ => 0) LoadFactors.default) []
      [.new, .update 0 (.insertAll words)] = [.pure (empty (fun _ => 0) .default), r'] := by
    simp [History.run, History.next, loggedVersion, update, r']
  rw [left, right, List.forall₂_cons, List.forall₂_cons] at both
  obtain ⟨_, ⟨length, buckets, events⟩, _⟩ := both
  have start : (empty crc32Of LoadFactors.default : BucketMap LoadFactors Caseless Nat).Reachable
      crc32Of .default := .empty
  have reachable : r.value.Reachable crc32Of .default := start.insertAll words
  -- Of any map, so that no map is evaluated.
  have shorter (m : BucketMap LoadFactors Caseless Nat) (h : m.Reachable crc32Of .default) :
      (m.erase ⟨"C"⟩).value.buckets.length = Load.bucketsThrough LoadFactors.default
        m.buckets.length m.length [(m.erase ⟨"C"⟩).value.length] :=
    lengths m h [.erase ⟨"C"⟩]
  exact ⟨length, buckets, events, reachable, shorter r.value reachable⟩

end BucketMap

end PersistentCollections
