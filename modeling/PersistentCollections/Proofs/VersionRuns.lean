import PersistentCollections.Proofs.Reachable
import PersistentCollections.Proofs.VectorHistory
import PersistentCollections.Proofs.VersionNames
import PersistentCollections.Version.Set

/-! Runs over versions of vectors, maps and sets that take their names from one ledger. No
step gives a name to two trees or to two tails, on whatever versions it is done, so in a
whole run a name stands for one thing. -/

namespace PersistentCollections

/-! ### Versions of one kind -/

/-- Versions whose values have a property, with names that stand for one part each. The
names belong to the vector that each version consists of. -/
structure Registered (view : γ → TrieVector α) (P : γ → Prop) (versions : List (Version γ))
    (next : Nat) : Prop where
  value : ∀ x ∈ versions, P x.value
  trees : Register (versions.map (VectorVersion.tree ∘ Version.map view)) next
  tails : Register (versions.map (VectorVersion.tail ∘ Version.map view)) next

/-- The version that a step makes, if it makes one, can be added to these. -/
structure Makes (view : γ → TrieVector α) (P : γ → Prop) (versions : List (Version γ))
    (made : Recording (Option (Version γ))) : Prop where
  next : ∀ l, l.next ≤ (made l).2.next
  value : ∀ l, ∀ z ∈ (made l).1, P z.value
  names : ∀ l, ∀ z ∈ (made l).1,
    MadeFrom (versions.map (Version.map view)) l.next (z.map view) (made l).2.next

section

variable {α γ : Type} {view : γ → TrieVector α} {P : γ → Prop} {versions : List (Version γ)}
  {x y z : Version γ} {l m : Nat}

namespace Registered

theorem nil (next : Nat) : Registered view P [] next := ⟨by simp, .nil next, .nil next⟩

theorem later (h : Registered view P versions l) (next : l ≤ m) : Registered view P versions m :=
  ⟨h.value, h.trees.later next, h.tails.later next⟩

theorem add (h : Registered view P versions l) (value : P z.value)
    (made : MadeFrom (versions.map (Version.map view)) l (z.map view) m) :
    Registered view P (versions ++ [z]) m := by
  have tree := made.tree
  have tail := made.tail
  rw [List.map_map] at tree tail
  refine ⟨?_, ?_, ?_⟩
  · simpa [or_imp, forall_and] using And.intro h.value value
  · rw [List.map_append]
    exact h.trees.add made.next tree
  · rw [List.map_append]
    exact h.tails.add made.next tail

theorem keep {made : Recording (Option (Version γ))} {l : Ledger}
    (h : Registered view P versions l.next) (makes : Makes view P versions made) :
    Registered view P (versions ++ (made l).1.toList) (made l).2.next := by
  cases result : (made l).1 with
  | none => simpa using h.later (makes.next l)
  | some z => exact h.add (makes.value l z result) (makes.names l z result)

theorem eq_of_same (h : Registered view P versions l) (hx : x ∈ versions) (hy : y ∈ versions)
    (same : VectorVersion.same (x.map view) (y.map view) = true) : view x.value = view y.value :=
  VectorVersion.eq_of_same
    (h.trees.single _ (List.mem_map_of_mem hx) _ (List.mem_map_of_mem hy))
    (h.tails.single _ (List.mem_map_of_mem hx) _ (List.mem_map_of_mem hy)) same

theorem same_eq_false (h : Registered view P versions l) (hy : y ∈ versions)
    (new : Renamed l (z.map view)) : VectorVersion.same (z.map view) (y.map view) = false :=
  new.same_eq_false
    ⟨h.trees.given _ (List.mem_map_of_mem hy), h.tails.given _ (List.mem_map_of_mem hy)⟩

end Registered

end

/-! ### Steps -/

def fromVersion (versions : List (Version γ)) (source : Nat)
    (make : Version γ → Recording (Option (Version γ))) : Recording (Option (Version γ)) :=
  match versions[source]? with
  | some x => make x
  | none => return none

def readVersion (r : Logged (Except Json.ReadError γ)) : Recording (Option (Version γ)) := do
  match ← record r with
  | .ok value => some <$> Version.fresh value
  | .error _ => return none

namespace Makes

variable {α γ σ : Type} {view : γ → TrieVector α} {P : γ → Prop} {versions : List (Version γ)}
  {x : Version γ}

theorem none : Makes view P versions (pure Option.none) := by
  constructor
  · exact fun l => Nat.le_refl l.next
  · intro l z made
    cases made
  · intro l z made
    cases made

theorem some {made : Recording (Version γ)} (value : ∀ l, P (made l).1.value)
    (names : ∀ l, MadeFrom (versions.map (Version.map view)) l.next ((made l).1.map view)
      (made l).2.next) :
    Makes view P versions (Option.some <$> made) := by
  constructor
  · exact fun l => (names l).next
  · intro l z result
    cases result
    exact value l
  · intro l z result
    cases result
    exact names l

theorem fresh {value : γ} (kept : P value) :
    Makes view P versions (Option.some <$> Version.fresh value) :=
  .some (fun _ => kept) fun l => (Version.fresh_names _ value view l).1

theorem record {β : Type} {r : Logged β} {f : β → Recording (Option (Version γ))}
    (makes : Makes view P versions (f r.value)) :
    Makes view P versions (PersistentCollections.record r >>= f) := by
  let noted (l : Ledger) : Ledger := { l with events := l.events ++ r.events }
  exact ⟨fun l => makes.next (noted l), fun l => makes.value (noted l),
    fun l => makes.names (noted l)⟩

theorem readVersion {r : Logged (Except Json.ReadError γ)} (value : ∀ v, r.value = .ok v → P v) :
    Makes view P versions (readVersion r) := by
  apply record
  split
  · rename_i v read
    exact fresh (value v read)
  · exact none

theorem fromVersion {make : Version γ → Recording (Option (Version γ))} (source : Nat)
    (each : ∀ x ∈ versions, Makes view P versions (make x)) :
    Makes view P versions (fromVersion versions source make) := by
  unfold PersistentCollections.fromVersion
  split
  · rename_i x found
    exact each x (List.mem_of_getElem? found)
  · exact none

theorem of_sharing {step : Version γ → σ → Recording (Version γ)} (h : Sharing view P step)
    (values : ∀ x ∈ versions, P x.value) (source : Nat) (a : σ) :
    Makes view P versions (PersistentCollections.fromVersion versions source fun x =>
      Option.some <$> step x a) := by
  refine fromVersion source fun x member => some (fun l => ?_) fun l => ?_
  · exact h.value x a l (values x member)
  · exact (h.names x a l (values x member)).of_mem (List.mem_map_of_mem member)

end Makes

theorem clone_sharing (view : γ → TrieVector α) (P : γ → Prop) :
    Sharing view P fun x () => pure x :=
  ⟨fun _ _ _ h => h, fun _ _ l _ => .refl (List.mem_singleton_self _) l.next⟩

/-! ### Vectors -/

namespace VectorVersion

variable {α : Type}

inductive Step (α : Type) where
  | empty
  | ofList (items : List α)
  | fromJson [JsonValue α] (text : String)
  | clone (source : Nat)
  | append (source : Nat) (items : List α)
  | push (source : Nat) (a : α)
  | pushEach (source : Nat) (items : List α)
  | set (source index : Nat) (a : α)

def make (versions : List (VectorVersion α)) : Step α → Recording (Option (VectorVersion α))
  | .empty => some <$> empty
  | .ofList items => some <$> ofList items
  | @Step.fromJson _ _ text => readVersion (PersistentCollections.fromJson text)
  | .clone source => fromVersion versions source fun x => some <$> pure x
  | .append source items => fromVersion versions source fun x => some <$> append x items
  | .push source a => fromVersion versions source fun x => some <$> push x a
  | .pushEach source items => fromVersion versions source fun x => some <$> pushEach x items
  | .set source index a => fromVersion versions source fun x =>
    match set x index a with
    | .ok made => some <$> made
    | .error _ => return none

theorem append_sharing :
    Sharing id TrieVector.WellFormed fun x (items : List α) => append x items where
  value x items l h := (h.append_eq items).1
  names x items l h := by
    by_cases some : items = []
    · subst some
      rw [append_nil]
      exact .refl (List.mem_singleton_self _) l.next
    · exact (append_names h some l).1

theorem push_sharing : Sharing id TrieVector.WellFormed fun x (a : α) => push x a :=
  ⟨fun x a => append_sharing.value x [a], fun x a => append_sharing.names x [a]⟩

theorem push_renamed (x : VectorVersion α) (a : α) (l : Ledger) (h : x.value.WellFormed) :
    Renamed l.next (push x a l).1 :=
  (append_names h (List.cons_ne_nil a []) l).2

theorem make_makes {versions : List (VectorVersion α)}
    (h : ∀ x ∈ versions, x.value.WellFormed) (step : Step α) :
    Makes id TrieVector.WellFormed versions (make versions step) := by
  cases step with
  | empty => exact .fresh TrieVector.empty_wellFormed
  | ofList items =>
    have start := TrieVector.empty_wellFormed (α := α)
    refine .some (fun l => (start.append_eq items).1) fun l => ?_
    have anew (sources) := Version.fresh_names sources (TrieVector.empty : TrieVector α) id l
    exact (anew _).1.trans (append_sharing.names _ items _ start)
  | fromJson text =>
    refine .readVersion fun v read => ?_
    obtain ⟨items, rfl⟩ := Json.Decoder.run_record read
    exact (TrieVector.ofList_represents items).wellFormed
  | clone source => exact .of_sharing (clone_sharing id TrieVector.WellFormed) h source ()
  | append source items => exact .of_sharing append_sharing h source items
  | push source a => exact .of_sharing push_sharing h source a
  | pushEach source items => exact .of_sharing push_sharing.foldlM h source items
  | set source index a =>
    refine .fromVersion source fun x member => ?_
    split
    · rename_i made accepted
      obtain ⟨inside, rfl⟩ := set_eq accepted
      refine .some (fun l => ((h x member).replace_eq a inside).1) fun l => ?_
      exact (replace_names x index a l).1.of_mem (List.mem_map_of_mem member)
    · exact .none

end VectorVersion

/-! ### Maps -/

namespace MapVersion

variable {π κ ν : Type} [BEq κ] [LoadPolicy π]

inductive Step (π κ ν : Type) [BEq κ] where
  | empty (hash : κ → UInt64) (policy : π)
  | ofList (hash : κ → UInt64) (policy : π) (items : List (κ × ν))
  | fromJson [JsonKey κ] [JsonValue ν] (hash : κ → UInt64) (policy : π) (text : String)
  | clone (source : Nat)
  | insert (source : Nat) (k : κ) (v : ν)
  | erase (source : Nat) (k : κ)
  | insertAll (source : Nat) (items : List (κ × ν))
  | eraseAll (source : Nat) (keys : List κ)

def make (versions : List (MapVersion π κ ν)) :
    Step π κ ν → Recording (Option (MapVersion π κ ν))
  | .empty hash policy => some <$> empty hash policy
  | .ofList hash policy items => some <$> ofList hash policy items
  | @Step.fromJson _ _ _ _ _ _ hash policy text =>
    readVersion (BucketMap.fromJson hash policy text)
  | .clone source => fromVersion versions source fun x => some <$> pure x
  | .insert source k v => fromVersion versions source fun x => some <$> insert x k v
  | .erase source k => fromVersion versions source fun x => some <$> erase x k
  | .insertAll source items => fromVersion versions source fun x => some <$> insertAll x items
  | .eraseAll source keys => fromVersion versions source fun x => some <$> eraseAll x keys

theorem erase_sharing {P : BucketMap π κ ν → Prop} (kept : ∀ m k, P m → P (m.erase k).value) :
    Sharing BucketMap.buckets P fun x (k : κ) => erase x k where
  value x k l h := by
    rw [erase_value]
    exact kept _ _ h
  names x k l _ := by
    cases known : x.value.contains k with
    | false =>
      rw [erase_absent x known]
      exact .refl (List.mem_singleton_self _) l.next
    | true => exact (erase_names x known l).1

/-- A property of all maps that are made anew, which an update of one item keeps. -/
structure Hereditary (P : BucketMap π κ ν → Prop) : Prop where
  empty : ∀ hash policy, P (.empty hash policy)
  ofList : ∀ hash policy items, P (BucketMap.ofList hash policy items).value
  fromJson : ∀ [JsonKey κ] [JsonValue ν] hash policy text m,
    (BucketMap.fromJson hash policy text).value = .ok m → P m
  insert : ∀ m k v, P m → P (m.insert k v).value
  erase : ∀ m k, P m → P (m.erase k).value

theorem hereditary_orderly [EquivBEq κ] : Hereditary (@BucketMap.Orderly π κ ν _) where
  empty := BucketMap.empty_orderly
  ofList _ _ items := (BucketMap.Reachable.ofList items).orderly.1
  fromJson _ _ _ _ read := (BucketMap.Reachable.fromJson read).orderly.1
  insert _ k v h := h.insert k v
  erase _ k h := h.erase k

theorem hereditary_reachable [EquivBEq κ] :
    Hereditary fun m : BucketMap π κ ν => m.Reachable m.hash m.policy where
  empty _ _ := .empty
  ofList _ _ items := .ofList items
  fromJson hash policy text m read := by
    have made : m.Reachable hash policy := .fromJson read
    exact made.own_settings
  insert _ k v h := (h.insert k v).own_settings
  erase _ k h := (h.erase k).own_settings

theorem make_makes {P : BucketMap π κ ν → Prop} (kept : Hereditary P)
    {versions : List (MapVersion π κ ν)} (h : ∀ x ∈ versions, P x.value) (step : Step π κ ν) :
    Makes BucketMap.buckets P versions (make versions step) := by
  have insert := insert_sharing kept.insert
  have erase := erase_sharing kept.erase
  cases step with
  | empty hash policy => exact .fresh (kept.empty hash policy)
  | ofList hash policy items =>
    have made := kept.ofList hash policy items
    exact Makes.record (f := fun m => some <$> Version.fresh m) (.fresh made)
  | fromJson hash policy text =>
    exact .readVersion fun m read => kept.fromJson hash policy text m read
  | clone source => exact .of_sharing (clone_sharing _ P) h source ()
  | insert source k v => exact .of_sharing insert h source (k, v)
  | erase source k => exact .of_sharing erase h source k
  | insertAll source items => exact .of_sharing insert.foldlM h source items
  | eraseAll source keys => exact .of_sharing erase.foldlM h source keys

end MapVersion

/-! ### Sets -/

namespace BucketSet

def buckets (s : BucketSet π κ) : TrieVector (Option (Bucket κ Unit)) := s.map.buckets

def Orderly [BEq κ] (s : BucketSet π κ) : Prop := s.map.Orderly

theorem toList_of_isEmpty [BEq κ] {s : BucketSet π κ} (h : s.Orderly) (none : s.isEmpty = true) :
    s.toList = [] := by
  have length := BucketMap.Orderly.length_toList h
  rw [show s.map.length = 0 from beq_iff_eq.1 none] at length
  rw [toList, BucketMap.keys, List.eq_nil_of_length_eq_zero length, List.map_nil]

end BucketSet

namespace SetVersion

variable {π κ : Type} [BEq κ] [LoadPolicy π]

/-- The second operand of a step on two sets may be any set. -/
inductive Step (π κ : Type) [BEq κ] where
  | empty (hash : κ → UInt64) (policy : π)
  | ofList (hash : κ → UInt64) (policy : π) (items : List κ)
  | fromJson [JsonValue κ] (hash : κ → UInt64) (policy : π) (text : String)
  | clone (source : Nat)
  | insert (source : Nat) (a : κ)
  | erase (source : Nat) (a : κ)
  | insertAll (source : Nat) (items : List κ)
  | eraseAll (source : Nat) (items : List κ)
  | union (source : Nat) (w : BucketSet π κ)
  | intersection (source : Nat) (w : BucketSet π κ)
  | difference (source : Nat) (w : BucketSet π κ)
  | symmetricDifference (source : Nat) (w : BucketSet π κ)

def make (versions : List (SetVersion π κ)) : Step π κ → Recording (Option (SetVersion π κ))
  | .empty hash policy => some <$> empty hash policy
  | .ofList hash policy items => some <$> ofList hash policy items
  | @Step.fromJson _ _ _ _ hash policy text =>
    readVersion (BucketSet.fromJson hash policy text)
  | .clone source => fromVersion versions source fun x => some <$> pure x
  | .insert source a => fromVersion versions source fun x => some <$> insert x a
  | .erase source a => fromVersion versions source fun x => some <$> erase x a
  | .insertAll source items => fromVersion versions source fun x => some <$> insertAll x items
  | .eraseAll source items => fromVersion versions source fun x => some <$> eraseAll x items
  | .union source w => fromVersion versions source fun x => some <$> union x w
  | .intersection source w => fromVersion versions source fun x => some <$> intersection x w
  | .difference source w => fromVersion versions source fun x => some <$> difference x w
  | .symmetricDifference source w =>
    fromVersion versions source fun x => some <$> symmetricDifference x w

theorem insert_value (x : SetVersion π κ) (a : κ) (l : Ledger) :
    (x.insert a l).1.value = (x.value.insert a).value :=
  congrArg BucketSet.mk (x.toMap.insert_value a () l)

theorem erase_value (x : SetVersion π κ) (a : κ) (l : Ledger) :
    (x.erase a l).1.value = (x.value.erase a).value :=
  congrArg BucketSet.mk (x.toMap.erase_value a l)

theorem erase_absent (x : SetVersion π κ) {a : κ} (absent : x.value.contains a = false)
    (l : Ledger) : x.erase a l = (x, l) := by
  have run : x.erase a l = (ofMap (x.toMap.erase a l).1, (x.toMap.erase a l).2) := rfl
  rw [run, x.toMap.erase_absent absent]
  rfl

variable [EquivBEq κ]

theorem insert_sharing :
    Sharing BucketSet.buckets BucketSet.Orderly fun (x : SetVersion π κ) a => insert x a where
  value x a l h := by
    rw [insert_value]
    exact BucketMap.Orderly.insert h a ()
  names x a l _ := ((toMap x).insert_names a () l).1

theorem erase_sharing :
    Sharing BucketSet.buckets BucketSet.Orderly fun (x : SetVersion π κ) a => erase x a where
  value x a l h := by
    rw [erase_value]
    exact BucketMap.Orderly.erase h a
  names x a l _ := by
    cases known : x.value.contains a with
    | false =>
      rw [erase_absent x known]
      exact .refl (List.mem_singleton_self _) l.next
    | true => exact ((toMap x).erase_names known l).1

theorem made_makes (versions : List (SetVersion π κ)) (hash : κ → UInt64) (policy : π)
    (items : List κ) : Makes BucketSet.buckets BucketSet.Orderly versions
      (some <$> made (BucketSet.ofList hash policy items)) :=
  Makes.record (f := fun s => some <$> Version.fresh s)
    (.fresh (BucketSet.ofList_orderly hash policy items))

theorem make_makes {versions : List (SetVersion π κ)} (h : ∀ x ∈ versions, x.value.Orderly)
    (step : Step π κ) :
    Makes BucketSet.buckets BucketSet.Orderly versions (make versions step) := by
  cases step with
  | empty hash policy =>
    have orderly : (BucketSet.empty hash policy).Orderly := BucketMap.empty_orderly hash policy
    exact Makes.fresh orderly
  | ofList hash policy items => exact made_makes versions hash policy items
  | fromJson hash policy text =>
    exact .readVersion fun m read => (BucketSet.Reachable.fromJson read).orderly
  | clone source => exact .of_sharing (clone_sharing _ BucketSet.Orderly) h source ()
  | insert source a => exact .of_sharing insert_sharing h source a
  | erase source a => exact .of_sharing erase_sharing h source a
  | insertAll source items => exact .of_sharing insert_sharing.foldlM h source items
  | eraseAll source items => exact .of_sharing erase_sharing.foldlM h source items
  | union source w => exact .of_sharing insert_sharing.foldlM h source w.toList
  | intersection source w => exact .fromVersion source fun x _ => made_makes versions _ _ _
  | difference source w => exact .fromVersion source fun x _ => made_makes versions _ _ _
  | symmetricDifference source w => exact .fromVersion source fun x _ => made_makes versions _ _ _

end SetVersion

/-! ### Runs -/

structure Pool (π α κ ν ε : Type) where
  vectors : List (VectorVersion α) := []
  maps : List (MapVersion π κ ν) := []
  sets : List (SetVersion π ε) := []

namespace Pool

variable {π α κ ν ε : Type} [BEq κ] [BEq ε] [LoadPolicy π]

inductive Step (π α κ ν ε : Type) [BEq κ] [BEq ε] where
  | vector (step : VectorVersion.Step α)
  | map (step : MapVersion.Step π κ ν)
  | set (step : SetVersion.Step π ε)
  /-- So many names go to collections of other types. -/
  | elsewhere (names : Nat)

def next (p : Pool π α κ ν ε) : Step π α κ ν ε → Recording (Pool π α κ ν ε)
  | .vector step =>
    return { p with vectors := p.vectors ++ (← VectorVersion.make p.vectors step).toList }
  | .map step => return { p with maps := p.maps ++ (← MapVersion.make p.maps step).toList }
  | .set step => return { p with sets := p.sets ++ (← SetVersion.make p.sets step).toList }
  | .elsewhere names => do
    modify fun l => { l with next := l.next + names }
    return p

def run (steps : List (Step π α κ ν ε)) : Recording (Pool π α κ ν ε) := steps.foldlM next {}

theorem run_keeps {Q : Pool π α κ ν ε → Ledger → Prop}
    (kept : ∀ p l step, Q p l → Q (next p step l).1 (next p step l).2)
    (steps : List (Step π α κ ν ε)) {l : Ledger} (start : Q {} l) :
    Q (run steps l).1 (run steps l).2 := by
  have general (p : Pool π α κ ν ε) (l : Ledger) (h : Q p l) :
      Q (steps.foldlM next p l).1 (steps.foldlM next p l).2 := by
    induction steps generalizing p l with
    | nil => exact h
    | cons step rest ih => exact ih (p.next step l).1 (p.next step l).2 (kept p l step h)
  exact general {} l start

/-- Whatever the vectors and the sets are, each map of a run was made by steps on maps. -/
theorem run_maps {P : BucketMap π κ ν → Prop} (kept : MapVersion.Hereditary P)
    (steps : List (Step π α κ ν ε)) (l : Ledger) : ∀ x ∈ (run steps l).1.maps, P x.value := by
  refine run_keeps (Q := fun p _ => ∀ x ∈ p.maps, P x.value) (fun p l step h => ?_) steps (by simp)
  cases step with
  | vector step => exact h
  | set step => exact h
  | elsewhere names => exact h
  | map step =>
    have made := (MapVersion.make_makes kept h step).value l
    change ∀ x ∈ p.maps ++ (MapVersion.make p.maps step l).1.toList, P x.value
    intro x member
    rcases List.mem_append.1 member with old | new
    · exact h x old
    · exact made x (Option.mem_toList.1 new)

/-- No name stands for two things, for any kind of versions. -/
structure Sound (p : Pool π α κ ν ε) (next : Nat) : Prop where
  vectors : Registered id TrieVector.WellFormed p.vectors next
  maps : Registered BucketMap.buckets BucketMap.Orderly p.maps next
  sets : Registered BucketSet.buckets BucketSet.Orderly p.sets next

variable [EquivBEq κ] [EquivBEq ε]

theorem next_sound {p : Pool π α κ ν ε} {l : Ledger} (h : p.Sound l.next)
    (step : Step π α κ ν ε) : (p.next step l).1.Sound (p.next step l).2.next := by
  obtain ⟨vectors, maps, sets⟩ := h
  cases step with
  | vector step =>
    have makes := VectorVersion.make_makes vectors.value step
    exact ⟨vectors.keep makes, maps.later (makes.next l), sets.later (makes.next l)⟩
  | map step =>
    have makes := MapVersion.make_makes MapVersion.hereditary_orderly maps.value step
    exact ⟨vectors.later (makes.next l), maps.keep makes, sets.later (makes.next l)⟩
  | set step =>
    have makes := SetVersion.make_makes sets.value step
    exact ⟨vectors.later (makes.next l), maps.later (makes.next l), sets.keep makes⟩
  | elsewhere names =>
    have more : l.next ≤ l.next + names := Nat.le_add_right _ _
    exact ⟨vectors.later more, maps.later more, sets.later more⟩

theorem run_sound (steps : List (Step π α κ ν ε)) (l : Ledger) :
    (run steps l).1.Sound (run steps l).2.next :=
  run_keeps (Q := fun p l => p.Sound l.next) (fun _ _ step h => next_sound h step) steps
    ⟨.nil _, .nil _, .nil _⟩

end Pool

end PersistentCollections
