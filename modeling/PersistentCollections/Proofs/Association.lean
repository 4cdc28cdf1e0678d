import PersistentCollections.Bucket

/-! Association lists: what a map stands for. A key is bound by the first item whose key
equals it; no two items have equal keys. The order of the items says nothing. -/

namespace PersistentCollections.Association

variable {κ ν : Type} [BEq κ]

def find? (items : List (κ × ν)) (k : κ) : Option (κ × ν) := items.find? fun item => item.1 == k

def erase (items : List (κ × ν)) (k : κ) : List (κ × ν) := items.filter fun item => !(item.1 == k)

def insert (items : List (κ × ν)) (k : κ) (v : ν) : List (κ × ν) := (k, v) :: erase items k

def insertAll (items more : List (κ × ν)) : List (κ × ν) :=
  more.foldl (fun items item => insert items item.1 item.2) items

def Distinct (items : List (κ × ν)) : Prop := items.Pairwise fun a b => (a.1 == b.1) = false

variable {items other : List (κ × ν)} {item : κ × ν} {k : κ} {v : ν}

theorem mem_erase : item ∈ erase items k ↔ item ∈ items ∧ (item.1 == k) = false := by
  simp [erase]

theorem erase_eq_self (absent : ∀ item ∈ items, (item.1 == k) = false) : erase items k = items :=
  List.filter_eq_self.2 fun item member => by simp [absent item member]

theorem erase_perm (h : items.Perm other) : (erase items k).Perm (erase other k) := h.filter _

theorem insert_perm (h : items.Perm other) : (insert items k v).Perm (insert other k v) :=
  (erase_perm h).cons _

theorem distinct_erase (h : Distinct items) : Distinct (erase items k) :=
  h.sublist List.filter_sublist

@[simp] theorem insertAll_nil (items : List (κ × ν)) : insertAll items [] = items := rfl

@[simp] theorem insertAll_cons (items : List (κ × ν)) (first : κ × ν) (more : List (κ × ν)) :
    insertAll items (first :: more) = insertAll (insert items first.1 first.2) more := rfl

theorem length_insertAll_le (items more : List (κ × ν)) :
    (insertAll items more).length ≤ items.length + more.length := by
  induction more generalizing items with
  | nil => exact Nat.le_refl _
  | cons first rest ih =>
    have kept : (erase items first.1).length ≤ items.length := List.length_filter_le ..
    have all := ih (insert items first.1 first.2)
    simp only [insertAll_cons, insert, List.length_cons] at *
    omega

theorem find?_append (items more : List (κ × ν)) (k : κ) :
    find? (items ++ more) k = (find? items k).or (find? more k) := List.find?_append

theorem contains_eq (items : List (κ × ν)) (k : κ) :
    Bucket.contains items k = (find? items k).isSome :=
  List.isSome_find?.symm

theorem erase_cons_of_ne {first : κ × ν} (different : (first.1 == k) = false) :
    erase (first :: items) k = first :: erase items k :=
  List.filter_cons_of_pos (by rw [different]; rfl)

theorem length_erase_lt (bound : Bucket.contains items k = true) :
    (erase items k).length < items.length := by
  obtain ⟨item, member, matching⟩ := List.any_eq_true.1 bound
  exact List.length_filter_lt_length_iff_exists.2 ⟨item, member, by simp [matching]⟩

variable [EquivBEq κ]

theorem find?_congr {l : κ} (equal : (k == l) = true) : find? items k = find? items l :=
  congrArg (List.find? · items) (funext fun _ => BEq.congr_right equal)

theorem distinct_insert (h : Distinct items) : Distinct (insert items k v) := by
  refine List.pairwise_cons.2 ⟨fun item member => ?_, distinct_erase h⟩
  rw [BEq.comm]
  exact (mem_erase.1 member).2

theorem Distinct.perm (h : Distinct items) (same : items.Perm other) : Distinct other :=
  (same.pairwise_iff fun apart => by rw [BEq.comm, apart]).1 h

theorem Distinct.absent {first : κ × ν} (h : Distinct (first :: items))
    (equal : (first.1 == k) = true) : ∀ other ∈ items, (other.1 == k) = false := by
  intro other member
  rw [← BEq.congr_right equal, BEq.comm]
  exact (List.pairwise_cons.1 h).1 other member

theorem Distinct.erase_cons_self {first : κ × ν} (h : Distinct (first :: items))
    (equal : (first.1 == k) = true) : erase (first :: items) k = items := by
  rw [erase, List.filter_cons_of_neg (by rw [equal]; decide)]
  exact erase_eq_self (h.absent equal)

theorem Distinct.find?_eq_some_iff (h : Distinct items) :
    find? items k = some item ↔ item ∈ items ∧ (item.1 == k) = true := by
  induction items with
  | nil => simp [find?]
  | cons first rest ih =>
    have restDistinct : Distinct rest := (List.pairwise_cons.1 h).2
    rw [find?, List.find?_cons]
    cases equal : first.1 == k with
    | true =>
      constructor
      · intro found
        obtain rfl := Option.some.inj found
        exact ⟨List.mem_cons_self, equal⟩
      · rintro ⟨member, matching⟩
        rcases List.mem_cons.1 member with rfl | later
        · rfl
        · rw [h.absent equal item later] at matching
          contradiction
    | false =>
      have other : ¬(item = first ∧ (item.1 == k) = true) := by
        rintro ⟨rfl, matching⟩
        rw [equal] at matching
        contradiction
      rw [List.mem_cons, or_and_right, ← ih restDistinct, or_iff_right other]
      rfl

theorem Distinct.find?_perm (h : Distinct items) (same : items.Perm other) (k : κ) :
    find? items k = find? other k := by
  ext item
  rw [h.find?_eq_some_iff, (h.perm same).find?_eq_some_iff, same.mem_iff]

theorem find?_erase (items : List (κ × ν)) (k l : κ) :
    find? (erase items k) l = if k == l then none else find? items l := by
  rw [find?, erase, List.find?_filter]
  split
  · rename_i equal
    refine List.find?_eq_none.2 fun item _ => ?_
    rw [BEq.congr_right equal]
    simp
  · rename_i apart
    refine congrArg (List.find? · items) (funext fun item => ?_)
    cases found : item.1 == l with
    | false => simp
    | true =>
      have kept : (item.1 == k) = false := by
        rw [BEq.congr_left found, BEq.comm]
        exact Bool.eq_false_iff.2 apart
      simp [kept]

theorem find?_insert (items : List (κ × ν)) (k l : κ) (v : ν) :
    find? (insert items k v) l = if k == l then some (k, v) else find? items l := by
  rw [find?, insert, List.find?_cons]
  cases equal : k == l with
  | true => rfl
  | false =>
    have behind := find?_erase items k l
    rw [equal] at behind
    exact behind

theorem Distinct.length_erase (h : Distinct items) (k : κ) :
    items.length = (erase items k).length + if Bucket.contains items k then 1 else 0 := by
  induction items with
  | nil => rfl
  | cons first rest ih =>
    have restDistinct : Distinct rest := (List.pairwise_cons.1 h).2
    rw [Bucket.contains, List.any_cons]
    cases equal : first.1 == k with
    | true =>
      rw [h.erase_cons_self equal]
      rfl
    | false =>
      rw [erase_cons_of_ne equal, List.length_cons, List.length_cons, ih restDistinct,
        Bool.false_or, Bucket.contains]
      omega

theorem Distinct.put_perm (h : Distinct items) (k : κ) (v : ν) :
    (Bucket.put (k, v) items).Perm (insert items k v) := by
  induction items with
  | nil => exact .refl _
  | cons first rest ih =>
    have restDistinct : Distinct rest := (List.pairwise_cons.1 h).2
    rw [Bucket.put, insert]
    cases equal : first.1 == k with
    | true =>
      rw [h.erase_cons_self equal]
      exact .refl _
    | false =>
      rw [erase_cons_of_ne equal]
      exact ((ih restDistinct).cons first).trans (.swap _ _ _)

theorem Distinct.insertAll_perm {more : List (κ × ν)} (h : Distinct (items ++ more)) :
    (insertAll items more).Perm (items ++ more) := by
  induction more generalizing items with
  | nil => rw [List.append_nil]; exact .refl _
  | cons first rest ih =>
    have absent : ∀ item ∈ items, (item.1 == first.1) = false := fun item member =>
      (List.pairwise_append.1 h).2.2 item member first List.mem_cons_self
    have bound : insert items first.1 first.2 = first :: items := by
      rw [insert, erase_eq_self absent]
    have moved : (first :: items ++ rest).Perm (items ++ first :: rest) := List.perm_middle.symm
    rw [insertAll_cons, bound]
    exact (ih (h.perm moved.symm)).trans moved

theorem Distinct.insertAll_nil (h : Distinct items) : (insertAll [] items).Perm items :=
  Distinct.insertAll_perm h

theorem contains_erase_of_ne {l : κ} (different : (k == l) = false) :
    Bucket.contains (erase items k) l = Bucket.contains items l := by
  rw [contains_eq, contains_eq, find?_erase, different]
  rfl

theorem Distinct.length_le (h : Distinct items)
    (covered : ∀ item ∈ items, Bucket.contains other item.1 = true) :
    items.length ≤ other.length := by
  -- Each item takes one that binds its key away from the other list.
  induction items generalizing other with
  | nil => exact Nat.zero_le _
  | cons first rest ih =>
    obtain ⟨apart, restDistinct⟩ := List.pairwise_cons.1 h
    have fewer := length_erase_lt (covered first List.mem_cons_self)
    have left : ∀ item ∈ rest, Bucket.contains (erase other first.1) item.1 = true := by
      intro item member
      rw [contains_erase_of_ne (apart item member)]
      exact covered item (List.mem_cons_of_mem first member)
    exact Nat.succ_le_of_lt (Nat.lt_of_le_of_lt (ih restDistinct left) fewer)

theorem Distinct.contains_of_length_le (h : Distinct items)
    (covered : ∀ item ∈ items, Bucket.contains other item.1 = true)
    (fits : other.length ≤ items.length) :
    ∀ item ∈ other, Bucket.contains items item.1 = true := by
  -- A key that they do not bind could be taken away from the other list, and yet it would
  -- have as many items as they are.
  intro extra member
  refine Decidable.byContradiction fun unbound => ?_
  have known : Bucket.contains other extra.1 = true :=
    List.any_eq_true.2 ⟨extra, member, BEq.rfl⟩
  have left : ∀ item ∈ items, Bucket.contains (erase other extra.1) item.1 = true := by
    intro item inside
    have apart : (extra.1 == item.1) = false := by
      refine Bool.eq_false_iff.2 fun equal => unbound (List.any_eq_true.2 ⟨item, inside, ?_⟩)
      rwa [BEq.comm]
    rw [contains_erase_of_ne apart]
    exact covered item inside
  have fewer := length_erase_lt known
  have count := h.length_le left
  omega

theorem Distinct.insertAll_append_perm {more : List (κ × ν)} (h : Distinct more) :
    (insertAll items more).Perm (more ++ items.filter fun item => !Bucket.contains more item.1) := by
  induction more generalizing items with
  | nil =>
    have all : items.filter (fun _ => true) = items := List.filter_eq_self.2 fun _ _ => rfl
    simp [Bucket.contains, all]
  | cons first rest ih =>
    obtain ⟨apart, restDistinct⟩ := List.pairwise_cons.1 h
    have new : Bucket.contains rest first.1 = false :=
      List.any_eq_false.2 fun item member => by rw [BEq.comm, apart item member]; simp
    have kept : (insert items first.1 first.2).filter (fun item => !Bucket.contains rest item.1) =
        first :: items.filter fun item => !Bucket.contains (first :: rest) item.1 := by
      rw [insert, List.filter_cons_of_pos (by simp [new]), erase, List.filter_filter]
      refine congrArg _ (List.filter_congr fun item _ => ?_)
      rw [Bucket.contains, Bucket.contains, List.any_cons, Bool.not_or, Bool.and_comm,
        BEq.comm (a := first.1)]
    rw [insertAll_cons]
    refine (ih restDistinct).trans ?_
    rw [kept]
    exact List.perm_middle

theorem Distinct.insertAll_congr {more others : List (κ × ν)} (h : Distinct more)
    (same : more.Perm others) : (insertAll items more).Perm (insertAll items others) := by
  have kept : (items.filter fun item => !Bucket.contains more item.1) =
      items.filter fun item => !Bucket.contains others item.1 := by
    simp only [Bucket.contains, same.any_eq]
  refine h.insertAll_append_perm.trans (.trans ?_ (h.perm same).insertAll_append_perm.symm)
  rw [kept]
  exact same.append_right _

theorem find?_insertAll (items more : List (κ × ν)) (k : κ) :
    find? (insertAll items more) k = (find? more.reverse k).or (find? items k) := by
  induction more generalizing items with
  | nil => rfl
  | cons first rest ih =>
    have own : find? [first] k = if first.1 == k then some first else none :=
      List.find?_singleton ..
    rw [insertAll_cons, ih, find?_insert, List.reverse_cons, find?_append, own, Option.or_assoc]
    cases first.1 == k <;> rfl

theorem find?_insertAll_nil (items : List (κ × ν)) (k : κ) :
    find? (insertAll [] items) k = find? items.reverse k :=
  (find?_insertAll [] items k).trans Option.or_none

end PersistentCollections.Association
