import PersistentCollections.Proofs.BucketTable
import PersistentCollections.Proofs.PrefixFree
import PersistentCollections.Proofs.SliceHistory

/-! What vectors and slices give to a hasher: their length, and then their elements as a walk
gives them out. The bytes say which elements these are and nothing else, so a slice feeds what a
vector of the same elements does, whatever stands outside its window. Where the feeds of the
elements say where they end, those of the sequences do too, as long as their lengths fit in the
eight bytes, and so on for sequences of sequences. -/

namespace PersistentCollections

variable {α : Type} [BEq α]

/-! ### Equality -/

theorem beq_iff_forall₂ {xs ys : List α} :
    (xs == ys) = true ↔ List.Forall₂ (fun a b => (a == b) = true) xs ys := by
  induction xs generalizing ys with
  | nil => cases ys <;> simp
  | cons a xs ih => cases ys <;> simp [ih]

theorem TrieVector.beq_iff {v w : TrieVector α} :
    (v == w) = true ↔ v.length = w.length ∧ (v.toList == w.toList) = true := by
  change (v.length == w.length && v.toList == w.toList) = true ↔ _
  rw [Bool.and_eq_true, beq_iff_eq]

theorem Slice.beq_iff {s t : Slice α} :
    (s == t) = true ↔ s.length = t.length ∧ (s.toList == t.toList) = true := by
  change (s.length == t.length && s.toList == t.toList) = true ↔ _
  rw [Bool.and_eq_true, beq_iff_eq]

section

variable [EquivBEq α]

instance equivBEqList : EquivBEq (List α) where
  rfl := beq_iff_forall₂.2 (List.forall₂_same.2 fun _ _ => BEq.rfl)
  symm h := beq_iff_forall₂.2 ((beq_iff_forall₂.1 h).flip.imp fun _ _ => BEq.symm)
  trans {xs ys zs} h k := by
    rw [beq_iff_forall₂] at h k ⊢
    induction h generalizing zs with
    | nil => exact k
    | cons first _ ih =>
      cases k with
      | cons second rest => exact .cons (BEq.trans first second) (ih rest)

instance : EquivBEq (TrieVector α) where
  rfl := TrieVector.beq_iff.2 ⟨rfl, BEq.rfl⟩
  symm h := TrieVector.beq_iff.2 ((TrieVector.beq_iff.1 h).imp Eq.symm BEq.symm)
  trans h k := TrieVector.beq_iff.2
    ((TrieVector.beq_iff.1 h).imp (fun same => same.trans (TrieVector.beq_iff.1 k).1)
      fun equal => BEq.trans equal (TrieVector.beq_iff.1 k).2)

instance : EquivBEq (Slice α) where
  rfl := Slice.beq_iff.2 ⟨rfl, BEq.rfl⟩
  symm h := Slice.beq_iff.2 ((Slice.beq_iff.1 h).imp Eq.symm BEq.symm)
  trans h k := Slice.beq_iff.2
    ((Slice.beq_iff.1 h).imp (fun same => same.trans (Slice.beq_iff.1 k).1)
      fun equal => BEq.trans equal (Slice.beq_iff.1 k).2)

end

/-! ### Lists -/

namespace PrefixFree

variable [HashFeed α] {among : α → Prop} {xs ys : List α}

theorem feedAll_agree (law : PrefixFree among) (equal : (xs == ys) = true) :
    feedAll xs = feedAll ys := by
  rw [beq_iff_forall₂] at equal
  have bytes : xs.flatMap feed = ys.flatMap feed := by
    induction equal with
    | nil => rfl
    | cons first _ ih => rw [List.flatMap_cons, List.flatMap_cons, law.agree _ _ first, ih]
  rw [feedAll, feedAll, equal.length_eq, bytes]

variable [EquivBEq α]

theorem flatMap_apart (law : PrefixFree among) (length : xs.length = ys.length)
    (hx : ∀ a ∈ xs, among a) (hy : ∀ a ∈ ys, among a)
    (begins : xs.flatMap feed <+: ys.flatMap feed) : (xs == ys) = true := by
  induction xs generalizing ys with
  | nil =>
    obtain rfl := List.eq_nil_of_length_eq_zero length.symm
    rfl
  | cons a xs ih =>
    obtain ⟨b, ys, rfl⟩ := List.exists_cons_of_length_eq_add_one length.symm
    rw [List.forall_mem_cons] at hx hy
    obtain ⟨first, rest⟩ := law.split hx.1 hy.1 begins
    rw [List.cons_beq_cons, first, Bool.true_and]
    exact ih (Nat.succ.inj length) hx.2 hy.2 rest

/-- The first eight bytes tell lengths apart, the others lists of one length. -/
theorem feedAll_apart (law : PrefixFree among) (shortX : xs.length < 2 ^ 64)
    (shortY : ys.length < 2 ^ 64) (hx : ∀ a ∈ xs, among a) (hy : ∀ a ∈ ys, among a)
    (begins : feedAll xs <+: feedAll ys) : (xs == ys) = true := by
  have lengths : feedLength xs.length = feedLength ys.length := by
    have first : feedLength xs.length <+: feedAll ys := (List.prefix_append _ _).trans begins
    exact (List.prefix_of_prefix_length_le first (List.prefix_append _ _)
      (Nat.le_refl _)).eq_of_length rfl
  have length : xs.length = ys.length := littleEndian_inj shortX shortY lengths
  rw [feedAll, feedAll, lengths] at begins
  exact law.flatMap_apart length hx hy ((List.prefix_append_right_inj _).1 begins)

end PrefixFree

/-! ### Vectors and slices -/

inductive Sequence (α : Type) where
  | vector (v : TrieVector α)
  | slice (s : Slice α)

namespace Sequence

omit [BEq α]

variable {x y : Sequence α}

def length : Sequence α → Nat
  | vector v => v.length
  | slice s => s.length

def toList : Sequence α → List α
  | vector v => v.toList
  | slice s => s.toList

def walked : Sequence α → List α
  | vector v => (Walk.rest v.cursor).1
  | slice s => (Walk.rest s.cursor).1

instance [HashFeed α] : HashFeed (Sequence α) where
  feed
    | vector v => feed v
    | slice s => feed s

/-- In some history of vectors, or of slices over such vectors. -/
inductive Made : Sequence α → Prop
  | vector {v : TrieVector α} (steps : List (TrieVector.VersionStep α))
    (version : v ∈ History.run TrieVector.version [] steps) : Made (vector v)
  | slice {s : Slice α} (vectorSteps : List (TrieVector.VersionStep α))
    (steps : List (Slice.VersionStep α))
    (version : s ∈ History.run (Slice.version (History.run TrieVector.version [] vectorSteps)) []
      steps) : Made (slice s)

theorem Made.vector_wellFormed {v : TrieVector α} (h : (Sequence.vector v).Made) : v.WellFormed := by
  cases h with
  | vector steps version =>
    exact History.run_forall TrieVector.version_wellFormed (by simp) steps v version

theorem Made.slice_wellFormed {s : Slice α} (h : (Sequence.slice s).Made) : s.WellFormed := by
  cases h with
  | slice vectorSteps steps version =>
    have backing : ∀ v ∈ History.run TrieVector.version [] vectorSteps, v.WellFormed :=
      History.run_forall TrieVector.version_wellFormed (by simp) vectorSteps
    exact History.run_forall (fun old made => Slice.version_wellFormed backing old made) (by simp)
      steps s version

theorem Made.length_eq (h : x.Made) : x.length = x.toList.length := by
  cases x with
  | vector v => exact h.vector_wellFormed.length_toList.symm
  | slice s =>
    have wellFormed := h.slice_wellFormed
    rw [toList, wellFormed.toList_eq, wellFormed.length_contents]
    rfl

theorem Made.walked_eq (h : x.Made) : x.walked = x.toList := by
  cases x with
  | vector v => exact h.vector_wellFormed.rest_cursor
  | slice s => rfl

theorem feed_eq [HashFeed α] (x : Sequence α) : feed x = feedAll x.toList := by
  cases x <;> rfl

/-- Short enough for its length to be told, and of elements that are told apart. -/
structure Within (among : α → Prop) (x : Sequence α) : Prop where
  made : x.Made
  short : x.length < 2 ^ 64
  elements : ∀ a ∈ x.toList, among a

theorem ofList_within {among : α → Prop} {items : List α} (short : items.length < 2 ^ 64)
    (elements : ∀ a ∈ items, among a) :
    (vector (TrieVector.ofList items).value).Within among := by
  have form := TrieVector.ofList_represents items
  have length : (vector (TrieVector.ofList items).value).length = items.length := form.length
  refine ⟨.vector [.ofList items] (List.mem_singleton_self _), length.symm ▸ short, ?_⟩
  exact fun a member => elements a (form.toList ▸ member)

theorem window_within {among : α → Prop} {items : List α} {start stop : Nat} (ordered : start ≤ stop)
    (inside : stop ≤ items.length) (short : items.length < 2 ^ 64)
    (elements : ∀ a ∈ items, among a) :
    let window := slice ⟨(TrieVector.ofList items).value, start, stop⟩
    window.Within among ∧ window.toList = (items.drop start).take (stop - start) := by
  intro window
  have whole := TrieVector.ofList_represents items
  obtain ⟨s, run, form⟩ := (Slice.ofVector_represents whole).slice ordered inside
  rw [← Slice.view_eq] at run
  have made : (TrieVector.ofList items).value.slice start stop =
      .ok ⟨(TrieVector.ofList items).value, start, stop⟩ := by
    rw [TrieVector.slice, checkRange_ok_iff.2 ⟨ordered, whole.length.symm ▸ inside⟩]
    rfl
  obtain rfl := Except.ok.inj (made.symm.trans run)
  have contents := form.answers.toList
  refine ⟨⟨.slice [.ofList items] [.view 0 start stop] ?_, ?_, fun a member => ?_⟩, contents⟩
  · have step : Slice.version [(TrieVector.ofList items).value] [] (.view 0 start stop) =
        ((TrieVector.ofList items).value.slice start stop).toOption := rfl
    change _ ∈ [] ++ (Slice.version [(TrieVector.ofList items).value] [] _).toList
    rw [step, made]
    exact List.mem_singleton_self _
  · have bound : stop - start < 2 ^ 64 := by omega
    exact bound
  · change a ∈ Slice.toList _ at member
    rw [contents] at member
    exact elements a (List.mem_of_mem_drop (List.mem_of_mem_take member))

/-- Two sequences, each a vector or a slice, feed the same bytes if they have equal elements.
Otherwise neither of them feeds what the other does and then more. -/
structure Identified [BEq α] [HashFeed α] (x y : Sequence α) : Prop where
  agree : (x.toList == y.toList) = true → feed x = feed y
  apart : (x.toList == y.toList) = false → ¬feed x <+: feed y ∧ ¬feed y <+: feed x

variable [BEq α] [EquivBEq α] [HashFeed α] {among : α → Prop}

theorem Within.equal (hx : x.Within among) (hy : y.Within among) (law : PrefixFree among)
    (begins : feed x <+: feed y) : x.length = y.length ∧ (x.toList == y.toList) = true := by
  have lengthX := hx.made.length_eq
  have lengthY := hy.made.length_eq
  rw [feed_eq, feed_eq] at begins
  have equal := law.feedAll_apart (lengthX ▸ hx.short) (lengthY ▸ hy.short) hx.elements
    hy.elements begins
  exact ⟨by rw [lengthX, lengthY, (beq_iff_forall₂.1 equal).length_eq], equal⟩

theorem Within.identified (hx : x.Within among) (hy : y.Within among) (law : PrefixFree among) :
    Identified x y where
  agree equal := by rw [feed_eq, feed_eq, law.feedAll_agree equal]
  apart differ := by
    constructor
    · exact fun begins => Bool.eq_false_iff.1 differ (hx.equal hy law begins).2
    · exact fun begins => Bool.eq_false_iff.1 differ (BEq.symm (hy.equal hx law begins).2)

end Sequence

open Sequence

variable [EquivBEq α] [HashFeed α] {among : α → Prop}

theorem PrefixFree.vector (law : PrefixFree among) :
    PrefixFree fun v : TrieVector α => (Sequence.vector v).Within among where
  agree _ _ equal := law.feedAll_agree (TrieVector.beq_iff.1 equal).2
  apart _ _ hv hw begins := TrieVector.beq_iff.2 (hv.equal hw law begins)

theorem PrefixFree.slice (law : PrefixFree among) :
    PrefixFree fun s : Slice α => (Sequence.slice s).Within among where
  agree _ _ equal := law.feedAll_agree (Slice.beq_iff.1 equal).2
  apart _ _ hs ht begins := Slice.beq_iff.2 (hs.equal ht law begins)

omit [EquivBEq α] in
theorem PrefixFree.respects (law : PrefixFree among) (digest : List UInt8 → UInt64) :
    Respects fun a : α => digest (feed a) :=
  fun a b equal => congrArg digest (law.agree a b equal)

structure SequenceFeeds [BEq α] [HashFeed α] (among : α → Prop) : Prop where
  delivered : ∀ x : Sequence α, x.Made → feed x = feedLength x.length ++ x.walked.flatMap feed
  identified : ∀ x y : Sequence α, x.Within among → y.Within among → Identified x y
  vector : PrefixFree fun v : TrieVector α => (Sequence.vector v).Within among
  slice : PrefixFree fun s : Slice α => (Sequence.slice s).Within among
  vector_keys : ∀ digest : List UInt8 → UInt64, Respects fun v : TrieVector α => digest (feed v)
  slice_keys : ∀ digest : List UInt8 → UInt64, Respects fun s : Slice α => digest (feed s)

/-- Vectors and slices of any histories and windows, of elements whose feeds say where they end. -/
theorem feeds_identify_contents (law : PrefixFree among) : SequenceFeeds among where
  delivered x made := by rw [feed_eq, feedAll, made.walked_eq, made.length_eq]
  identified _ _ hx hy := hx.identified hy law
  vector := law.vector
  slice := law.slice
  vector_keys := law.vector.respects
  slice_keys := law.slice.respects

/-- Three words in two vectors of vectors, divided differently, and a window on a longer one that
shows what the first of them holds. -/
theorem feeds_identify_contents_nested :
    let vector {α : Type} (items : List α) : TrieVector α := (TrieVector.ofList items).value
    let word (n : Option (FixedInt .u8)) (text : String) := (n, text)
    let first := [word (some (.wrap 1)) "a", word none "b"]
    let last := [word none ""]
    let among (v : TrieVector (Option (FixedInt .u8) × String)) : Prop :=
      (Sequence.vector v).Within fun p => (∀ n, p.1 = some n → True) ∧ True
    let x := Sequence.vector (vector [vector first, vector last])
    let y := Sequence.vector (vector [vector (first.take 1), vector (first.drop 1 ++ last)])
    let z := Sequence.slice ⟨vector [vector [], vector first, vector last], 1, 3⟩
    PrefixFree among ∧ x.Within among ∧ y.Within among ∧ z.Within among ∧
      feed z = feed x ∧ ¬feed x <+: feed y ∧
      Respects (crc32Of : Slice (TrieVector (Option (FixedInt .u8) × String)) → UInt64) := by
  intro vector word first last among x y z
  have words := (PrefixFree.fixedInt (f := .u8) (by decide)).option.pair PrefixFree.string
  have law : PrefixFree among := (feeds_identify_contents words).vector
  have inner (items : List (Option (FixedInt .u8) × String)) (short : items.length < 2 ^ 64) :
      among (vector items) :=
    Sequence.ofList_within short fun _ _ => ⟨fun _ _ => trivial, trivial⟩
  have outer {items : List (TrieVector (Option (FixedInt .u8) × String))}
      (short : items.length < 2 ^ 64) (elements : ∀ v ∈ items, among v) :
      (Sequence.vector (vector items)).Within among :=
    Sequence.ofList_within short elements
  have hx : x.Within among := outer (by decide) (by simp [inner, first, last])
  have hy : y.Within among := outer (by decide) (by simp [inner, first, last])
  have window : z.Within among ∧ z.toList = [vector first, vector last] :=
    Sequence.window_within (by decide) (by decide) (by decide) (by simp [inner, first, last])
  have listed {β : Type} (items : List β) : (Sequence.vector (vector items)).toList = items :=
    (TrieVector.ofList_represents items).toList
  have nested := feeds_identify_contents law
  have same : (z.toList == x.toList) = true := by
    rw [window.2, listed]
    exact BEq.rfl
  have different : (x.toList == y.toList) = false := by
    have lengths : (vector first == vector (first.take 1)) = false := by
      refine Bool.eq_false_iff.2 fun equal => ?_
      have count := (TrieVector.beq_iff.1 equal).1
      rw [(TrieVector.ofList_represents _).length, (TrieVector.ofList_represents _).length] at count
      simp [first] at count
    rw [listed, listed, List.cons_beq_cons, lengths, Bool.false_and]
  exact ⟨law, hx, hy, window.1, (nested.identified z x window.1 hx).agree same,
    ((nested.identified x y hx hy).apart different).1, nested.slice_keys crc32⟩

end PersistentCollections
