import PersistentCollections.BucketSet
import PersistentCollections.Proofs.Iteration
import PersistentCollections.Proofs.MapShape

/-! Walks over the items of a map. A walk over buckets may end in buckets without items,
so it need not stand still behind the last item. What every step of a walk keeps is
stated as a relation between the walk and what is to come of it. Behind each step is a loop
that passes over buckets; it is set down turn by turn, with no bound on the turns. -/

namespace PersistentCollections

namespace ItemCursor

variable {γ κ ν : Type} [Walk γ (Option (Bucket κ ν))] {items : List (κ × ν)}

def Pending (c : ItemCursor γ κ ν) (items : List (κ × ν)) : Prop :=
  ∃ buckets, Walk.Gives c.buckets buckets ∧ items = c.items ++ buckets.flatMap Bucket.items ∧
    c.remaining = items.length

variable {walk : γ} {buckets : List (Option (Bucket κ ν))} {here : Bucket κ ν} {remaining : Nat}

/-- The loop of a step: it ends with an item of the bucket at hand, or where there is no
bucket more; otherwise it takes the next bucket. There is an item to count down from. -/
inductive Turns : ItemCursor γ κ ν → Option (κ × ν) × ItemCursor γ κ ν → Prop
  | item {walk : γ} {item : κ × ν} {here : Bucket κ ν} {remaining : Nat} : remaining ≠ 0 →
    Turns ⟨walk, item :: here, remaining⟩ (some item, ⟨walk, here, remaining - 1⟩)
  | skip {walk later : γ} {b : Option (Bucket κ ν)} {remaining : Nat}
    {r : Option (κ × ν) × ItemCursor γ κ ν} : Walk.step walk = .ok (some b, later) →
    Turns ⟨later, Bucket.items b, remaining⟩ r → Turns ⟨walk, [], remaining⟩ r
  | done {walk later : γ} {remaining : Nat} : Walk.step walk = .ok (none, later) →
    Turns ⟨walk, [], remaining⟩ (none, ⟨later, [], remaining⟩)

theorem stepWithin_cons {item : κ × ν} (gives : Walk.Gives walk buckets) (ahead : Nat)
    (count : remaining = (item :: here ++ buckets.flatMap Bucket.items).length) :
    stepWithin ahead ⟨walk, item :: here, remaining⟩ =
        .ok (some item, ⟨walk, here, remaining - 1⟩) ∧
      Turns ⟨walk, item :: here, remaining⟩ (some item, ⟨walk, here, remaining - 1⟩) ∧
      Pending ⟨walk, here, remaining - 1⟩ (here ++ buckets.flatMap Bucket.items) := by
  have positive : remaining ≠ 0 := by simp [count]
  refine ⟨?_, .item positive, buckets, gives, rfl, by simp [count]⟩
  cases ahead <;> simp [stepWithin, positive]

theorem stepWithin_eq {ahead : Nat} (gives : Walk.Gives walk buckets)
    (enough : buckets.length < ahead)
    (count : remaining = (here ++ buckets.flatMap Bucket.items).length) :
    ∃ d, stepWithin ahead ⟨walk, here, remaining⟩ =
        .ok ((here ++ buckets.flatMap Bucket.items).head?, d) ∧
      Turns ⟨walk, here, remaining⟩ ((here ++ buckets.flatMap Bucket.items).head?, d) ∧
      d.Pending (here ++ buckets.flatMap Bucket.items).tail := by
  -- By the buckets to come; a turn that finds no item at hand takes one of them.
  induction gives generalizing ahead here with
  | @done walk still none =>
    obtain ⟨ahead, rfl⟩ := Nat.exists_eq_succ_of_ne_zero (Nat.ne_zero_of_lt enough)
    cases here with
    | cons item here => exact ⟨_, stepWithin_cons (.done still none) _ count⟩
    | nil =>
      refine ⟨⟨walk, [], remaining⟩, ?_, .done still, [], .done still none, rfl, count⟩
      simp [stepWithin, still, bind, Except.bind, pure, Except.pure]
  | @item walk later b buckets moved left gives ih =>
    obtain ⟨ahead, rfl⟩ := Nat.exists_eq_succ_of_ne_zero (Nat.ne_zero_of_lt enough)
    cases here with
    | cons item here => exact ⟨_, stepWithin_cons (.item moved left gives) _ count⟩
    | nil =>
      obtain ⟨d, stepped, turns, pending⟩ := ih (Nat.lt_of_succ_lt_succ enough) count
      refine ⟨d, ?_, .skip moved turns, pending⟩
      simp only [stepWithin, moved, bind, Except.bind]
      exact stepped

theorem Pending.step_eq {c : ItemCursor γ κ ν} (h : c.Pending items) :
    ∃ d, Walk.step c = .ok (items.head?, d) ∧ c.Turns (items.head?, d) ∧ d.Pending items.tail := by
  obtain ⟨buckets, gives, rfl, count⟩ := h
  have enough : buckets.length < Walk.remaining c.buckets + 1 := by simp [gives.remaining_eq]
  exact stepWithin_eq gives enough count

theorem keeps_pending : Walk.Keeps (Pending : ItemCursor γ κ ν → List (κ × ν) → Prop) := by
  intro c items h
  obtain ⟨d, moved, _, pending⟩ := h.step_eq
  obtain ⟨_, _, _, count⟩ := h
  exact ⟨count, d, moved, pending⟩

end ItemCursor

namespace KeyCursor

variable {γ κ ν : Type} [Walk γ (Option (Bucket κ ν))]

def Pending (c : KeyCursor γ κ ν) (keys : List κ) : Prop :=
  ∃ items, c.items.Pending items ∧ keys = items.map Prod.fst

theorem keeps_pending : Walk.Keeps (Pending : KeyCursor γ κ ν → List κ → Prop) := by
  rintro c _ ⟨items, h, rfl⟩
  obtain ⟨count, d, moved, kept⟩ := ItemCursor.keeps_pending _ _ h
  refine ⟨count.trans (List.length_map _).symm, ⟨d⟩, ?_, _, kept, ?_⟩
  · simp only [Walk.step] at moved ⊢
    simp [moved, bind, Except.bind, pure, Except.pure]
  · rw [List.map_tail]

end KeyCursor

namespace BucketMap

variable {π κ ν : Type} {m : BucketMap π κ ν}

theorem Tallied.cursor_pending (h : m.Tallied) : m.cursor.Pending m.toList :=
  ⟨_, h.tabled.buckets.cursor_gives, rfl, h.length_toList.symm⟩

theorem Tallied.leafCursor_pending (h : m.Tallied) : m.leafCursor.Pending m.toList :=
  ⟨_, h.tabled.buckets.leafCursor_gives, rfl, h.length_toList.symm⟩

variable [BEq κ]

theorem WellFormed.cursor_pending (h : m.WellFormed) : m.cursor.Pending m.toList :=
  h.orderly.tallied.cursor_pending

theorem WellFormed.leafCursor_pending (h : m.WellFormed) : m.leafCursor.Pending m.toList :=
  h.orderly.tallied.leafCursor_pending

end BucketMap

end PersistentCollections
