import PersistentCollections.Proofs.MapShape
import PersistentCollections.Proofs.VectorCanonical
import PersistentCollections.Version.Map

/-! Names of versions. A step on a version keeps the names of what it shares and takes
the others from those that were not given out before. So no name is given to two things,
and versions that have a name in common have in common what it stands for. -/

namespace PersistentCollections

/-! ### Names and what they stand for -/

section

variable {β : Type} {named old : List (Nat × β)} {a b : Nat × β} {l m n : Nat}

/-- The names are below the next one, and none was given to two things. -/
structure Register (named : List (Nat × β)) (l : Nat) : Prop where
  given : ∀ a ∈ named, a.1 < l
  single : ∀ a ∈ named, ∀ b ∈ named, a.1 = b.1 → a = b

/-- One of these things, or one whose name was given out between two moments. -/
def KeptOrNew (old : List (Nat × β)) (l : Nat) (a : Nat × β) (later : Nat) : Prop :=
  a ∈ old ∨ l ≤ a.1 ∧ a.1 < later

theorem Register.nil (l : Nat) : Register ([] : List (Nat × β)) l := by
  constructor <;> simp

theorem Register.later (h : Register named l) (next : l ≤ m) : Register named m :=
  ⟨fun a member => Nat.lt_of_lt_of_le (h.given a member) next, h.single⟩

theorem Register.add (h : Register named l) (next : l ≤ m)
    (made : KeptOrNew named l a m) : Register (named ++ [a]) m := by
  rcases made with kept | ⟨new, given⟩
  · have same (b : Nat × β) : b ∈ named ++ [a] ↔ b ∈ named := by
      simp only [List.mem_append, List.mem_singleton]
      exact or_iff_left_of_imp fun equal => equal ▸ kept
    constructor <;> simp only [same]
    · exact (h.later next).given
    · exact h.single
  · have apart : ∀ b ∈ named, b.1 ≠ a.1 := fun b member => by
      have := h.given b member
      omega
    constructor <;> simp only [List.mem_append, List.mem_singleton]
    · rintro b (old | rfl)
      · exact (h.later next).given b old
      · exact given
    · rintro b (old | rfl) c (other | rfl) equal
      · exact h.single b old c other equal
      · exact absurd equal (apart b old)
      · exact absurd equal.symm (apart c other)
      · rfl

theorem KeptOrNew.of_mem (h : KeptOrNew [b] l a m) (member : b ∈ old) : KeptOrNew old l a m := by
  refine h.imp_left fun kept => ?_
  rwa [List.mem_singleton.1 kept]

theorem KeptOrNew.trans (first : KeptOrNew old l b m) (second : KeptOrNew [b] m a n)
    (next : l ≤ m) (further : m ≤ n) : KeptOrNew old l a n := by
  rcases second with kept | new
  · rw [List.mem_singleton.1 kept]
    exact first.imp_right fun given => by omega
  · exact .inr (by omega)

theorem KeptOrNew.name (h : KeptOrNew [b] l a m) : a.1 = b.1 ∨ l ≤ a.1 ∧ a.1 < m :=
  h.imp_left fun kept => congrArg Prod.fst (List.mem_singleton.1 kept)

end

def Stamp.Before (s : Stamp) (next : Nat) : Prop := s.root < next ∧ s.tail < next

namespace VectorVersion

variable {α : Type}

theorem same_self (x : VectorVersion α) : x.same x = true := by
  simp [same]

theorem same_comm (x y : VectorVersion α) : x.same y = y.same x := by
  rw [same, same, Bool.beq_comm, Bool.beq_comm (a := x.stamp)]

def tree (x : VectorVersion α) : Nat × Node α × Nat := (x.stamp.root, x.value.root, x.value.height)

def tail (x : VectorVersion α) : Nat × List α := (x.stamp.tail, x.value.tail)

theorem eq_of_same {x y : VectorVersion α} (tree : x.stamp.root = y.stamp.root → x.tree = y.tree)
    (tail : x.stamp.tail = y.stamp.tail → x.tail = y.tail) (same : x.same y = true) :
    x.value = y.value := by
  obtain ⟨⟨root, items, length, height⟩, stamp⟩ := x
  obtain ⟨⟨root', items', length', height'⟩, stamp'⟩ := y
  simp only [VectorVersion.same, Bool.and_eq_true, beq_iff_eq] at same
  obtain ⟨rfl, rfl⟩ := same
  obtain ⟨rfl, rfl⟩ : root = root' ∧ height = height' := by
    simpa [VectorVersion.tree] using tree rfl
  obtain rfl : items = items' := by simpa [VectorVersion.tail] using tail rfl
  rfl

end VectorVersion

/-- Each part of a version comes, with its name, from one of these, or has a new name. -/
structure MadeFrom (sources : List (VectorVersion α)) (l : Nat) (z : VectorVersion α)
    (later : Nat) : Prop where
  next : l ≤ later
  tree : KeptOrNew (sources.map VectorVersion.tree) l z.tree later
  tail : KeptOrNew (sources.map VectorVersion.tail) l z.tail later

/-- One of the two names was not given out before. -/
def Renamed (l : Nat) (z : VectorVersion α) : Prop :=
  l ≤ z.stamp.root ∨ l ≤ z.stamp.tail

theorem Renamed.same_eq_false {y z : VectorVersion α} {n : Nat} (new : Renamed n z)
    (old : y.stamp.Before n) : z.same y = false := by
  have other : z.stamp ≠ y.stamp := fun equal => by
    simp only [Renamed, equal, Stamp.Before] at new old
    omega
  simp [VectorVersion.same, other]

namespace MadeFrom

variable {α : Type} {sources : List (VectorVersion α)} {x y z : VectorVersion α}
  {l m n : Nat}

theorem refl (member : x ∈ sources) (l : Nat) : MadeFrom sources l x l :=
  ⟨Nat.le_refl _, .inl (List.mem_map_of_mem member), .inl (List.mem_map_of_mem member)⟩

theorem of_mem (h : MadeFrom [x] l z m) (member : x ∈ sources) : MadeFrom sources l z m where
  next := h.next
  tree := h.tree.of_mem (List.mem_map_of_mem member)
  tail := h.tail.of_mem (List.mem_map_of_mem member)

theorem trans (first : MadeFrom sources l y m) (second : MadeFrom [y] m z n) :
    MadeFrom sources l z n where
  next := Nat.le_trans first.next second.next
  tree := first.tree.trans second.tree first.next second.next
  tail := first.tail.trans second.tail first.next second.next

theorem root (h : MadeFrom [x] l z m) :
    z.stamp.root = x.stamp.root ∨ l ≤ z.stamp.root ∧ z.stamp.root < m :=
  h.tree.name

theorem before (h : MadeFrom [x] l z m) (old : x.stamp.Before l) : z.stamp.Before m := by
  have next := h.next
  have root := h.tree.name
  have tail := h.tail.name
  simp only [VectorVersion.tree, VectorVersion.tail, Stamp.Before] at *
  omega

theorem renamed (h : MadeFrom [y] m z n) (next : l ≤ m) (new : Renamed l y) :
    Renamed l z := by
  have root := h.root
  have tail : z.stamp.tail = y.stamp.tail ∨ m ≤ z.stamp.tail ∧ _ := h.tail.name
  unfold Renamed at *
  omega

end MadeFrom

theorem Version.fresh_run (value : γ) (l : Ledger) :
    Version.fresh value l = (⟨value, ⟨l.next, l.next + 1⟩⟩, { l with next := l.next + 2 }) := rfl

theorem Stamp.afterReplace_run (s : Stamp) (v : TrieVector α) (index : Nat) (l : Ledger) :
    s.afterReplace v index l = if v.tailOffset ≤ index
      then (⟨s.root, l.next⟩, { l with next := l.next + 1 })
      else (⟨l.next, s.tail⟩, { l with next := l.next + 1 }) := by
  unfold afterReplace
  split <;> rfl

theorem Stamp.afterAppend_run (s : Stamp) (before after : TrieVector α) (l : Ledger) :
    s.afterAppend before after l = if before.length = after.length then (s, l)
      else if before.tailOffset = after.tailOffset
        then (⟨s.root, l.next⟩, { l with next := l.next + 1 })
        else (⟨l.next + 1, l.next⟩, { l with next := l.next + 2 }) := by
  unfold afterAppend
  split
  · rfl
  · split <;> rfl

theorem Version.fresh_names (sources : List (VectorVersion α)) (value : γ)
    (view : γ → TrieVector α) (l : Ledger) :
    MadeFrom sources l.next ((Version.fresh value l).1.map view) (Version.fresh value l).2.next ∧
      Renamed l.next ((Version.fresh value l).1.map view) := by
  rw [Version.fresh_run]
  refine ⟨⟨Nat.le_add_right _ _, .inr ?_, .inr ?_⟩, .inl (Nat.le_refl _)⟩
  · exact ⟨Nat.le_refl _, Nat.lt_add_of_pos_right Nat.two_pos⟩
  · exact ⟨Nat.le_succ _, Nat.lt_succ_self _⟩

namespace TrieVector

variable {α : Type} {v : TrieVector α} {index : Nat}

theorem replace_of_tail (h : v.tailOffset ≤ index) (a : α) :
    (v.replace index a).root = v.root ∧ (v.replace index a).height = v.height := by
  simp only [replace, replaceChecked, h, if_true]
  cases Chunk.put v.tail (index % width) a <;> exact ⟨rfl, rfl⟩

theorem replace_of_tree (h : ¬v.tailOffset ≤ index) (a : α) :
    (v.replace index a).tail = v.tail := by
  simp only [replace, replaceChecked, h, if_false]
  cases v.root.replaceAt v.height index a <;> rfl

theorem append_nil (v : TrieVector α) : v.append [] = ⟨v, []⟩ := by
  rw [append, TrieVector.appendChecked]

theorem WellFormed.append_of_tail (h : v.WellFormed) {items : List α}
    (same : v.tailOffset = (v.append items).value.tailOffset) :
    (v.append items).value.root = v.root ∧ (v.append items).value.height = v.height := by
  by_cases none : items = []
  · subst none
    rw [append_nil]
    exact ⟨rfl, rfl⟩
  · obtain ⟨made, contents⟩ := h.append_eq items
    have length := h.length_append items
    have before := h.tail_length
    have behind := made.tail_length
    have most := made.tail_le
    have offset := v.tailOffset_le
    have longer : (v.addToTail items).WellFormed :=
      (wellFormed_iff.1 h).1.addToTail (by omega) none
    rw [made.eq_of_toList longer (by rw [contents, toList_addToTail])]
    exact ⟨rfl, rfl⟩

end TrieVector

namespace VectorVersion

variable {α : Type} {x : VectorVersion α}

theorem replace_names (x : VectorVersion α) (index : Nat) (a : α) (l : Ledger) :
    MadeFrom [x] l.next (x.replace index a l).1 (x.replace index a l).2.next ∧
      Renamed l.next (x.replace index a l).1 := by
  let renewed := x.stamp.afterReplace x.value index l
  have run : x.replace index a l = (⟨x.value.replace index a, renewed.1⟩, renewed.2) := rfl
  have given : l.next ≤ l.next ∧ l.next < l.next + 1 := ⟨Nat.le_refl _, Nat.lt_succ_self _⟩
  simp only [run, renewed, Stamp.afterReplace_run]
  split
  · rename_i behind
    have kept := TrieVector.replace_of_tail behind a
    refine ⟨⟨Nat.le_succ _, .inl ?_, .inr given⟩, .inr given.1⟩
    simp [tree, kept]
  · rename_i before
    have kept := TrieVector.replace_of_tree before a
    refine ⟨⟨Nat.le_succ _, .inr given, .inl ?_⟩, .inl given.1⟩
    simp [tail, kept]

theorem append_nil (x : VectorVersion α) (l : Ledger) : x.append [] l = (x, l) := by
  let r := x.value.append []
  let noted : Ledger := { l with events := l.events ++ r.events }
  let renewed := x.stamp.afterAppend x.value r.value noted
  have run : x.append [] l = (⟨r.value, renewed.1⟩, renewed.2) := rfl
  simp only [run, renewed, noted, r, TrieVector.append_nil, Stamp.afterAppend_run, if_true,
    List.append_nil]

theorem append_names (h : x.value.WellFormed) {items : List α} (some : items ≠ [])
    (l : Ledger) :
    MadeFrom [x] l.next (x.append items l).1 (x.append items l).2.next ∧
      Renamed l.next (x.append items l).1 := by
  let r := x.value.append items
  let renewed := x.stamp.afterAppend x.value r.value { l with events := l.events ++ r.events }
  have run : x.append items l = (⟨r.value, renewed.1⟩, renewed.2) := rfl
  have longer : x.value.length ≠ r.value.length := by
    have count : r.value.length = x.value.length + items.length := h.length_append items
    have := List.length_pos_iff.2 some
    omega
  simp only [run, renewed, Stamp.afterAppend_run, if_neg longer]
  split
  · rename_i behind
    have kept := h.append_of_tail behind
    refine ⟨⟨Nat.le_succ _, .inl ?_, .inr ⟨Nat.le_refl _, Nat.lt_succ_self _⟩⟩,
      .inr (Nat.le_refl _)⟩
    simp [tree, r, kept]
  · refine ⟨⟨Nat.le_add_right _ _, .inr ?_, .inr ?_⟩, .inr (Nat.le_refl _)⟩
    · exact ⟨Nat.le_succ _, Nat.lt_succ_self _⟩
    · exact ⟨Nat.le_refl _, Nat.lt_add_of_pos_right Nat.two_pos⟩

theorem set_eq {x : VectorVersion α} {index : Nat} {a : α} {made : Recording (VectorVersion α)}
    (h : x.set index a = .ok made) : index < x.value.length ∧ made = x.replace index a := by
  unfold set at h
  cases checked : checkIndex index x.value.length with
  | error e =>
    rw [checked] at h
    cases h
  | ok _ =>
    rw [checked] at h
    exact ⟨checkIndex_ok_iff.1 checked, (Except.ok.inj h).symm⟩

end VectorVersion

/-! ### Series of steps -/

/-- A step that keeps a property of the values, and keeps the names of what it shares. -/
structure Sharing (view : γ → TrieVector α) (P : γ → Prop)
    (step : Version γ → σ → Recording (Version γ)) : Prop where
  value : ∀ x a l, P x.value → P (step x a l).1.value
  names : ∀ x a l, P x.value →
    MadeFrom [x.map view] l.next ((step x a l).1.map view) (step x a l).2.next

section

variable {α γ σ : Type} {view : γ → TrieVector α} {step : Version γ → σ → Recording (Version γ)}
  {P : γ → Prop} {x : Version γ}

theorem Sharing.foldlM (h : Sharing view P step) :
    Sharing view P (fun x (steps : List σ) => steps.foldlM step x) := by
  constructor <;> intro x steps l start
  · induction steps generalizing x l with
    | nil => exact start
    | cons a rest ih => exact ih (step x a l).1 (step x a l).2 (h.value x a l start)
  · induction steps generalizing x l with
    | nil => exact .refl (List.mem_singleton_self _) l.next
    | cons a rest ih =>
      exact (h.names x a l start).trans (ih (step x a l).1 (step x a l).2 (h.value x a l start))

theorem Sharing.foldlM_renamed (h : Sharing view P step)
    (new : ∀ x a l, P x.value → Renamed l.next ((step x a l).1.map view))
    (start : P x.value) {steps : List σ} (some : steps ≠ []) (l : Ledger) :
    Renamed l.next ((steps.foldlM step x l).1.map view) := by
  obtain ⟨a, rest, rfl⟩ := List.exists_cons_of_ne_nil some
  have later := h.foldlM.names (step x a l).1 rest (step x a l).2 (h.value x a l start)
  exact later.renamed (h.names x a l start).next (new x a l start)

theorem foldlM_unchanged {steps : List σ} (each : ∀ a ∈ steps, ∀ l, (step x a l).1 = x)
    (l : Ledger) : (steps.foldlM step x l).1 = x := by
  induction steps generalizing l with
  | nil => rfl
  | cons a rest ih =>
    have first : (step x a l).1 = x := each a List.mem_cons_self l
    have others := ih (fun b member => each b (List.mem_cons_of_mem a member)) (step x a l).2
    change (rest.foldlM step (step x a l).1 (step x a l).2).1 = x
    rwa [first]

end

namespace MapVersion

variable {π κ ν : Type}

theorem same_self (x : MapVersion π κ ν) : x.same x = true := VectorVersion.same_self _

theorem same_comm (x y : MapVersion π κ ν) : x.same y = y.same x := VectorVersion.same_comm ..

theorem same_eq_false {x y : MapVersion π κ ν} (other : x.stamp.root ≠ y.stamp.root) :
    x.same y = false := by
  have stamps : x.stamp ≠ y.stamp := fun equal => other (congrArg Stamp.root equal)
  simp [same, VectorVersion.same, Version.map, stamps]

variable [BEq κ] [LoadPolicy π]

theorem insert_value (x : MapVersion π κ ν) (k : κ) (v : ν) (l : Ledger) :
    (x.insert k v l).1.value = (x.value.insert k v).value := by
  cases grows : x.value.growsOn k <;>
  · unfold insert
    simp only [grows]
    rfl

theorem insert_names (x : MapVersion π κ ν) (k : κ) (v : ν) (l : Ledger) :
    MadeFrom [x.map BucketMap.buckets] l.next ((x.insert k v l).1.map BucketMap.buckets)
        (x.insert k v l).2.next ∧
      Renamed l.next ((x.insert k v l).1.map BucketMap.buckets) := by
  let w := (x.value.insert k v).value
  let noted : Ledger := { l with events := l.events ++ (x.value.insert k v).events }
  obtain ⟨grows, _⟩ | ⟨fits, made⟩ := BucketMap.insert_cases x.value k v
  · have run : x.insert k v l = Version.fresh w noted := by
      unfold insert
      simp only [grows]
      rfl
    rw [run]
    exact Version.fresh_names _ w BucketMap.buckets noted
  · -- In place it is a replacement in the bucket vector.
    let renewed := x.stamp.afterReplace x.value.buckets (x.value.place k) noted
    have run : x.insert k v l = (⟨w, renewed.1⟩, renewed.2) := by
      unfold insert
      simp only [fits]
      rfl
    rw [run, show w = _ from made]
    exact VectorVersion.replace_names (x.map BucketMap.buckets) (x.value.place k)
      (some (Bucket.put (k, v) (x.value.bucket (x.value.place k)))) noted

theorem insert_sharing {P : BucketMap π κ ν → Prop} (kept : ∀ m k v, P m → P (m.insert k v).value) :
    Sharing BucketMap.buckets P (fun x (item : κ × ν) => insert x item.1 item.2) where
  value x item l h := by
    rw [insert_value]
    exact kept _ _ _ h
  names x item l _ := (insert_names x item.1 item.2 l).1

theorem insertAll_run (x : MapVersion π κ ν) (items : List (κ × ν)) (l : Ledger) :
    (x.insertAll items l).1.value = (x.value.insertAll items).value ∧
      MadeFrom [x.map BucketMap.buckets] l.next ((x.insertAll items l).1.map BucketMap.buckets)
        (x.insertAll items l).2.next := by
  constructor
  · rw [BucketMap.insertAll, Logged.fold_value]
    induction items generalizing x l with
    | nil => rfl
    | cons item rest ih =>
      rw [List.foldl_cons, ← x.insert_value item.1 item.2 l]
      exact ih (x.insert item.1 item.2 l).1 (x.insert item.1 item.2 l).2
  · exact (insert_sharing (P := fun _ => True) fun _ _ _ h => h).foldlM.names x items l trivial

theorem erase_absent (x : MapVersion π κ ν) {k : κ} (absent : x.value.contains k = false)
    (l : Ledger) : x.erase k l = (x, l) := by
  have none : (x.value.erase k).events = [] := by simp [BucketMap.erase, absent]
  have run : x.erase k l = (x, { l with events := l.events ++ (x.value.erase k).events }) := by
    unfold erase
    simp only [absent]
    rfl
  rw [run, none, List.append_nil]

theorem erase_value (x : MapVersion π κ ν) (k : κ) (l : Ledger) :
    (x.erase k l).1.value = (x.value.erase k).value := by
  cases known : x.value.contains k with
  | false =>
    rw [x.erase_absent known]
    simp [BucketMap.erase, known]
  | true =>
    cases sparse : (x.value.eraseInPlace k).sparse <;>
    · unfold erase
      simp only [known, sparse]
      rfl

theorem erase_names (x : MapVersion π κ ν) {k : κ} (known : x.value.contains k = true)
    (l : Ledger) :
    MadeFrom [x.map BucketMap.buckets] l.next ((x.erase k l).1.map BucketMap.buckets)
        (x.erase k l).2.next ∧
      Renamed l.next ((x.erase k l).1.map BucketMap.buckets) := by
  let w := (x.value.erase k).value
  let noted : Ledger := { l with events := l.events ++ (x.value.erase k).events }
  let renewed := x.stamp.afterReplace x.value.buckets (x.value.place k) noted
  have replaced := VectorVersion.replace_names (x.map BucketMap.buckets) (x.value.place k)
    (Bucket.stored (Bucket.erase (x.value.bucket (x.value.place k)) k)) noted
  obtain ⟨absent, _⟩ | ⟨_, few, _⟩ | ⟨_, fits, made⟩ := BucketMap.erase_cases x.value k
  · simp [known] at absent
  · -- The bucket vector is renamed first, and then not used.
    have run : x.erase k l = Version.fresh w renewed.2 := by
      unfold erase
      simp only [known, few]
      rfl
    have anew (sources) := Version.fresh_names sources w BucketMap.buckets renewed.2
    rw [run]
    exact ⟨replaced.1.trans (anew _).1, (anew _).1.renamed replaced.1.next replaced.2⟩
  · have run : x.erase k l = (⟨w, renewed.1⟩, renewed.2) := by
      unfold erase
      simp only [known, fits]
      rfl
    rw [run, show w = _ from made]
    exact replaced

end MapVersion

end PersistentCollections
