import PersistentCollections.Proofs.VersionRuns

/-! Operations that are refused where memory has no room for the buckets. One that is not
refused is the plain one, and a batch that is refused has done the items before. None is
refused where there is room for as many items as there can be by then: a batch brings one
more at most with each of its items. -/

namespace PersistentCollections

/-! ### Actions that may be refused -/

/-- The bounded action is the plain one, or it is refused and nothing is done. -/
def Refusable (action : Bounded γ) (plain : Recording γ) : Prop :=
  ∀ l, (∃ e, action l = (.error e, l)) ∨ action l = (.ok (plain l).1, (plain l).2)

theorem bounded_some_eq_lift {c : LoadFactors} {items : Nat} (room : c.fits items = true)
    (action : Recording γ) : bounded c (some items) action = ExceptT.lift action := by
  rw [bounded, room]
  rfl

theorem bounded_eq_lift {c : LoadFactors} {spread? : Option Nat}
    (room : ∀ items ∈ spread?, c.fits items = true) (action : Recording γ) :
    bounded c spread? action = ExceptT.lift action := by
  cases spread? with
  | none => rfl
  | some items => exact bounded_some_eq_lift (room items rfl) action

theorem bounded_refusable (c : LoadFactors) (spread? : Option Nat) (action : Recording γ) :
    Refusable (bounded c spread? action) action := by
  intro l
  cases spread? with
  | none => exact .inr rfl
  | some items =>
    cases fits : c.fits items <;> rw [bounded, fits]
    · exact .inl ⟨⟨items⟩, rfl⟩
    · exact .inr rfl

theorem bind_of_error {action : Bounded γ} {l l' : Ledger} {e : CapacityError}
    (refused : action l = (.error e, l')) (f : γ → Bounded δ) :
    (action >>= f) l = (.error e, l') := by
  change (match action l with | (r, l') => ExceptT.bindCont f r l') = _
  rw [refused]
  rfl

theorem bind_of_ok {action : Bounded γ} {l l' : Ledger} {a : γ}
    (done : action l = (.ok a, l')) (f : γ → Bounded δ) : (action >>= f) l = f a l' := by
  change (match action l with | (r, l') => ExceptT.bindCont f r l') = _
  rw [done]
  rfl

theorem Refusable.map {action : Bounded γ} {plain : Recording γ} (h : Refusable action plain)
    (f : γ → δ) : Refusable (do return f (← action)) (do return f (← plain)) := by
  intro l
  rcases h l with ⟨e, refused⟩ | done
  · exact .inl ⟨e, bind_of_error refused _⟩
  · exact .inr (bind_of_ok done _)

section Batch

variable {step : β → α → Bounded β} {plain : β → α → Recording β}

/-- A batch of which an item is refused has done those before it. -/
theorem foldlM_refused (each : ∀ b a, Refusable (step b a) (plain b a)) (items : List α)
    (start : β) (l : Ledger) :
    (∃ done a rest e, items = done ++ a :: rest ∧
      items.foldlM step start l = (.error e, (done.foldlM plain start l).2)) ∨
    items.foldlM step start l =
      (.ok (items.foldlM plain start l).1, (items.foldlM plain start l).2) := by
  induction items generalizing start l with
  | nil => exact .inr rfl
  | cons a rest ih =>
    rw [List.foldlM_cons]
    rcases each start a l with ⟨e, refused⟩ | first
    · exact .inl ⟨[], a, rest, e, rfl, bind_of_error refused _⟩
    · rw [bind_of_ok first]
      rcases ih (plain start a l).1 (plain start a l).2 with
        ⟨done, b, after, e, split, refused⟩ | all
      · exact .inl ⟨a :: done, b, after, e, congrArg (a :: ·) split, refused⟩
      · exact .inr all

/-- No step is refused if what allows the first `n` of them is kept by each for the others. -/
theorem foldlM_eq_lift {P : Nat → β → Prop}
    (each : ∀ n b a, P (n + 1) b → step b a = ExceptT.lift (plain b a) ∧ ∀ l, P n (plain b a l).1)
    (items : List α) (start : β) (h : P items.length start) :
    items.foldlM step start = ExceptT.lift (items.foldlM plain start) := by
  induction items generalizing start with
  | nil => rfl
  | cons a rest ih =>
    obtain ⟨lifted, kept⟩ := each rest.length start a h
    rw [List.foldlM_cons, List.foldlM_cons, lifted]
    funext l
    exact congrFun (ih _ (kept l)) _

end Batch

/-! ### Maps -/

variable {κ ν : Type} [BEq κ]

/-- There is room for the items of a map and so many more. -/
structure BucketMap.FitsMemory (m : BucketMap LoadFactors κ ν) (more : Nat) : Prop where
  tallied : m.Tallied
  room : ∀ items ≤ m.length + more, m.policy.fits items = true

namespace BucketMap.FitsMemory

variable {m : BucketMap LoadFactors κ ν} {more : Nat}

theorem spreadOnInsert (h : m.FitsMemory (more + 1)) (k : κ) :
    ∀ items ∈ m.spreadOnInsert? k, m.policy.fits items = true := by
  intro items spread
  refine h.room items ?_
  unfold spreadOnInsert? at spread
  split at spread <;> cases spread
  omega

theorem spreadOnErase (h : m.FitsMemory more) (k : κ) :
    ∀ items ∈ m.spreadOnErase? k, m.policy.fits items = true := by
  intro items spread
  have fewer : (m.eraseInPlace k).length ≤ m.length := Nat.sub_le _ _
  refine h.room items ?_
  unfold spreadOnErase? at spread
  split at spread
  · simp only at spread
    split at spread <;> cases spread
    omega
  · cases spread

theorem insert (h : m.FitsMemory (more + 1)) (k : κ) (v : ν) :
    (m.insert k v).value.FitsMemory more := by
  refine ⟨h.tallied.insert k v, fun items few => ?_⟩
  have longer := h.tallied.length_insert_le k v
  rw [(insert_settings m k v).2]
  exact h.room items (by omega)

theorem erase (h : m.FitsMemory more) (k : κ) : (m.erase k).value.FitsMemory more := by
  refine ⟨h.tallied.erase k, fun items few => ?_⟩
  have shorter := h.tallied.length_erase_le k
  rw [(erase_settings m k).2]
  exact h.room items (by omega)

end BucketMap.FitsMemory

namespace MapVersion

variable (x : MapVersion LoadFactors κ ν)

theorem insert_refusable (k : κ) (v : ν) : Refusable (x.insertBounded k v) (x.insert k v) :=
  bounded_refusable _ _ _

theorem erase_refusable (k : κ) : Refusable (x.eraseBounded k) (x.erase k) :=
  bounded_refusable _ _ _

theorem insertAll_refused (items : List (κ × ν)) (l : Ledger) :
    (∃ done item rest e, items = done ++ item :: rest ∧
      x.insertAllBounded items l = (.error e, (x.insertAll done l).2)) ∨
    x.insertAllBounded items l = (.ok (x.insertAll items l).1, (x.insertAll items l).2) :=
  foldlM_refused (fun x item => x.insert_refusable item.1 item.2) items x l

theorem eraseAll_refused (keys : List κ) (l : Ledger) :
    (∃ done k rest e, keys = done ++ k :: rest ∧
      x.eraseAllBounded keys l = (.error e, (x.eraseAll done l).2)) ∨
    x.eraseAllBounded keys l = (.ok (x.eraseAll keys l).1, (x.eraseAll keys l).2) :=
  foldlM_refused erase_refusable keys x l

theorem ofListBounded_eq_lift {c : LoadFactors} {items : List (κ × ν)}
    (fits : c.fits items.length = true) (hash : κ → UInt64) :
    ofListBounded hash c items = ExceptT.lift (ofList hash c items) :=
  bounded_some_eq_lift fits _

variable {x} {more : Nat}

theorem insertBounded_eq_lift (h : x.value.FitsMemory (more + 1)) (k : κ) (v : ν) :
    x.insertBounded k v = ExceptT.lift (x.insert k v) :=
  bounded_eq_lift (h.spreadOnInsert k) _

theorem eraseBounded_eq_lift (h : x.value.FitsMemory more) (k : κ) :
    x.eraseBounded k = ExceptT.lift (x.erase k) :=
  bounded_eq_lift (h.spreadOnErase k) _

theorem insertAllBounded_eq_lift {items : List (κ × ν)} (h : x.value.FitsMemory items.length) :
    x.insertAllBounded items = ExceptT.lift (x.insertAll items) := by
  refine foldlM_eq_lift (P := fun n x => x.value.FitsMemory n) (fun n x item room => ?_) items x h
  refine ⟨insertBounded_eq_lift room item.1 item.2, fun l => ?_⟩
  rw [insert_value]
  exact room.insert item.1 item.2

theorem eraseAllBounded_eq_lift {keys : List κ} (h : x.value.FitsMemory 0) :
    x.eraseAllBounded keys = ExceptT.lift (x.eraseAll keys) := by
  refine foldlM_eq_lift (P := fun _ x => x.value.FitsMemory 0) (fun n x k room => ?_) keys x h
  refine ⟨eraseBounded_eq_lift room k, fun l => ?_⟩
  rw [erase_value]
  exact room.erase k

end MapVersion

/-! ### Sets -/

namespace SetVersion

section Refusals

variable (x : SetVersion LoadFactors κ)

theorem insert_refusable (a : κ) : Refusable (x.insertBounded a) (x.insert a) :=
  (x.toMap.insert_refusable a ()).map ofMap

theorem erase_refusable (a : κ) : Refusable (x.eraseBounded a) (x.erase a) :=
  (x.toMap.erase_refusable a).map ofMap

theorem insertAll_refused (items : List κ) (l : Ledger) :
    (∃ done a rest e, items = done ++ a :: rest ∧
      x.insertAllBounded items l = (.error e, (x.insertAll done l).2)) ∨
    x.insertAllBounded items l = (.ok (x.insertAll items l).1, (x.insertAll items l).2) :=
  foldlM_refused insert_refusable items x l

theorem eraseAll_refused (items : List κ) (l : Ledger) :
    (∃ done a rest e, items = done ++ a :: rest ∧
      x.eraseAllBounded items l = (.error e, (x.eraseAll done l).2)) ∨
    x.eraseAllBounded items l = (.ok (x.eraseAll items l).1, (x.eraseAll items l).2) :=
  foldlM_refused erase_refusable items x l

theorem rebuild_refusable (items : List κ) : Refusable (x.rebuildBounded items) (x.rebuild items) :=
  bounded_refusable _ _ _

end Refusals

variable {x : SetVersion LoadFactors κ} {w : BucketSet LoadFactors κ} {more : Nat}

theorem ofListBounded_eq_lift {c : LoadFactors} {items : List κ}
    (fits : c.fits items.length = true) (hash : κ → UInt64) :
    ofListBounded hash c items = ExceptT.lift (ofList hash c items) :=
  bounded_some_eq_lift fits _

theorem insertBounded_eq_lift (h : x.value.map.FitsMemory (more + 1)) (a : κ) :
    x.insertBounded a = ExceptT.lift (x.insert a) := by
  rw [insertBounded, MapVersion.insertBounded_eq_lift (x := x.toMap) h]
  rfl

theorem eraseBounded_eq_lift (h : x.value.map.FitsMemory more) (a : κ) :
    x.eraseBounded a = ExceptT.lift (x.erase a) := by
  rw [eraseBounded, MapVersion.eraseBounded_eq_lift (x := x.toMap) h]
  rfl

theorem insertAllBounded_eq_lift {items : List κ} (h : x.value.map.FitsMemory items.length) :
    x.insertAllBounded items = ExceptT.lift (x.insertAll items) := by
  refine foldlM_eq_lift (P := fun n x => x.value.map.FitsMemory n) (fun n x a room => ?_) items x h
  refine ⟨insertBounded_eq_lift room a, fun l => ?_⟩
  rw [insert_value]
  exact room.insert a ()

theorem eraseAllBounded_eq_lift {items : List κ} (h : x.value.map.FitsMemory 0) :
    x.eraseAllBounded items = ExceptT.lift (x.eraseAll items) := by
  refine foldlM_eq_lift (P := fun _ x => x.value.map.FitsMemory 0) (fun n x a room => ?_) items x h
  refine ⟨eraseBounded_eq_lift room a, fun l => ?_⟩
  rw [erase_value]
  exact room.erase a

theorem unionBounded_eq_lift (h : x.value.map.FitsMemory w.toList.length) :
    x.unionBounded w = ExceptT.lift (x.union w) :=
  insertAllBounded_eq_lift h

theorem rebuildBounded_eq_lift {items : List κ} (h : x.value.map.FitsMemory more)
    (few : items.length ≤ x.value.toList.length + more) :
    x.rebuildBounded items = ExceptT.lift (x.rebuild items) := by
  rw [BucketSet.toList, BucketMap.keys, List.length_map, h.tallied.length_toList] at few
  exact bounded_some_eq_lift (h.room items.length few) _

theorem intersectionBounded_eq_lift (h : x.value.map.FitsMemory 0) :
    x.intersectionBounded w = ExceptT.lift (x.intersection w) :=
  rebuildBounded_eq_lift h (List.length_filter_le _ _)

theorem differenceBounded_eq_lift (h : x.value.map.FitsMemory 0) :
    x.differenceBounded w = ExceptT.lift (x.difference w) :=
  rebuildBounded_eq_lift h (List.length_filter_le _ _)

theorem symmetricDifferenceBounded_eq_lift (h : x.value.map.FitsMemory w.toList.length) :
    x.symmetricDifferenceBounded w = ExceptT.lift (x.symmetricDifference w) := by
  refine rebuildBounded_eq_lift h ?_
  rw [List.length_append]
  exact Nat.add_le_add (List.length_filter_le _ _) (List.length_filter_le _ _)

end SetVersion

end PersistentCollections
