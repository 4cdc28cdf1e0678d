/-! Lists put together from blocks of one length: where an entry of the whole list
stands in its block, and what a change inside of one block does to the whole list.
Only the last block may be shorter. -/

namespace PersistentCollections.Blocks

variable {α β : Type} {f : α → List β} {size : Nat}

theorem modify_append_right (xs ys : List β) (i : Nat) (g : β → β) :
    (xs ++ ys).modify (xs.length + i) g = xs ++ ys.modify i g :=
  List.modifyTailIdx_add (List.modifyHead g) i xs ys

theorem modify_append_left {xs : List β} (ys : List β) {i : Nat} (g : β → β)
    (inside : i < xs.length) : (xs ++ ys).modify i g = xs.modify i g ++ ys := by
  induction xs generalizing i with
  | nil => simp at inside
  | cons x rest ih =>
    cases i with
    | zero => rfl
    | succ i =>
      have tail := ih (Nat.lt_of_succ_lt_succ inside)
      simp only [List.cons_append, List.modify_succ_cons, tail]

theorem length_flatMap {xs : List α} (even : ∀ x ∈ xs, (f x).length = size) :
    (xs.flatMap f).length = size * xs.length := by
  induction xs with
  | nil => rfl
  | cons x rest ih =>
    have tail := ih fun y hy => even y (List.mem_cons_of_mem x hy)
    have head := even x List.mem_cons_self
    rw [List.flatMap_cons, List.length_append, head, tail, List.length_cons, Nat.mul_succ,
      Nat.add_comm]

theorem getElem?_flatMap {xs : List α} {last : α} (positive : 0 < size)
    (even : ∀ x ∈ xs, (f x).length = size) (short : (f last).length ≤ size) (i : Nat) :
    ((xs ++ [last]).flatMap f)[i]? =
      ((xs ++ [last])[i / size]?).bind fun x => (f x)[i % size]? := by
  induction xs generalizing i with
  | nil =>
    by_cases inside : i < size
    · simp [Nat.div_eq_of_lt inside, Nat.mod_eq_of_lt inside]
    · have quotient : 1 ≤ i / size := (Nat.one_le_div_iff positive).2 (Nat.le_of_not_lt inside)
      have beyond : [last][i / size]? = none := List.getElem?_eq_none quotient
      simpa [beyond] using Nat.le_trans short (Nat.le_of_not_lt inside)
  | cons x rest ih =>
    have head := even x List.mem_cons_self
    have tail := ih fun y hy => even y (List.mem_cons_of_mem x hy)
    rw [List.cons_append, List.flatMap_cons]
    by_cases inside : i < size
    · rw [List.getElem?_append_left (by omega), Nat.div_eq_of_lt inside, Nat.mod_eq_of_lt inside]
      simp
    · have before : size ≤ i := Nat.le_of_not_lt inside
      rw [List.getElem?_append_right (by omega), head, tail, Nat.div_eq_sub_div positive before,
        Nat.mod_eq_sub_mod before, List.getElem?_cons_succ]

theorem length_lt_of_more {x last : α} {xs : List α} (full : (f x).length = size)
    (nonempty : f last ≠ []) : size < ((x :: xs ++ [last]).flatMap f).length := by
  have some := List.length_pos_iff.2 nonempty
  rw [List.cons_append, List.flatMap_cons, List.flatMap_append, List.flatMap_singleton,
    List.length_append, List.length_append, full]
  omega

/-- The whole tells the blocks: the last of them is neither empty nor longer than the
others, so none of them can start elsewhere. -/
theorem eq_of_flatMap_eq {xs ys : List α} {a b : α} (evenX : ∀ x ∈ xs, (f x).length = size)
    (evenY : ∀ y ∈ ys, (f y).length = size) (lastX : f a ≠ [] ∧ (f a).length ≤ size)
    (lastY : f b ≠ [] ∧ (f b).length ≤ size)
    (injective : ∀ x ∈ xs ++ [a], ∀ y ∈ ys ++ [b], f x = f y → x = y)
    (same : (xs ++ [a]).flatMap f = (ys ++ [b]).flatMap f) : xs ++ [a] = ys ++ [b] := by
  have count := congrArg List.length same
  induction xs generalizing ys with
  | nil =>
    cases ys with
    | nil => simpa using injective a (by simp) b (by simp) (by simpa using same)
    | cons y others =>
      have more : size < ((y :: others ++ [b]).flatMap f).length :=
        length_lt_of_more (evenY y List.mem_cons_self) lastY.1
      have single : ([] ++ [a]).flatMap f = f a := List.flatMap_singleton ..
      rw [← count, single] at more
      exact absurd lastX.2 (Nat.not_le.2 more)
  | cons x rest ih =>
    cases ys with
    | nil =>
      have more : size < ((x :: rest ++ [a]).flatMap f).length :=
        length_lt_of_more (evenX x List.mem_cons_self) lastX.1
      have single : ([] ++ [b]).flatMap f = f b := List.flatMap_singleton ..
      rw [count, single] at more
      exact absurd lastY.2 (Nat.not_le.2 more)
    | cons y others =>
      have headX := evenX x List.mem_cons_self
      have headY := evenY y List.mem_cons_self
      rw [List.cons_append, List.cons_append, List.flatMap_cons, List.flatMap_cons] at same
      obtain ⟨first, behind⟩ := List.append_inj same (headX.trans headY.symm)
      have tail := ih (fun z hz => evenX z (List.mem_cons_of_mem x hz))
        (fun z hz => evenY z (List.mem_cons_of_mem y hz))
        (fun z hz w hw => injective z (List.mem_cons_of_mem x hz) w (List.mem_cons_of_mem y hw))
        behind (congrArg List.length behind)
      rw [List.cons_append, List.cons_append, tail, injective x List.mem_cons_self y
        List.mem_cons_self first]

theorem flatMap_set {xs : List α} {i : Nat} {x y : α} {r : Nat} {g : β → β}
    (even : ∀ z ∈ xs.take i, (f z).length = size) (found : xs[i]? = some x)
    (inside : r < (f x).length) (changed : f y = (f x).modify r g) :
    (xs.set i y).flatMap f = (xs.flatMap f).modify (size * i + r) g := by
  induction xs generalizing i with
  | nil => simp at found
  | cons z rest ih =>
    cases i with
    | zero =>
      obtain rfl : z = x := by simpa using found
      rw [List.set_cons_zero, List.flatMap_cons, List.flatMap_cons, changed, Nat.mul_zero,
        Nat.zero_add, modify_append_left _ _ inside]
    | succ i =>
      have head : (f z).length = size := even z (by simp)
      have before : ∀ w ∈ rest.take i, (f w).length = size := fun w hw => even w (by simp [hw])
      have tail := ih before (by simpa using found)
      have position : size * (i + 1) + r = (f z).length + (size * i + r) := by
        rw [head, Nat.mul_succ]
        omega
      rw [List.set_cons_succ, List.flatMap_cons, List.flatMap_cons, tail, position,
        modify_append_right]

section

variable {xs : List (List β)}

theorem length_flatten (even : ∀ x ∈ xs, x.length = size) : xs.flatten.length = size * xs.length := by
  rw [← List.flatMap_id]
  exact length_flatMap even

theorem take_drop_flatten {i : Nat} {x : List β} (even : ∀ x ∈ xs, x.length = size)
    (found : xs[i]? = some x) (rest : List β) :
    ((xs.flatten ++ rest).drop (i * size)).take size = x := by
  induction xs generalizing i with
  | nil => simp at found
  | cons y others ih =>
    have head : y.length = size := even y List.mem_cons_self
    rw [List.flatten_cons, List.append_assoc]
    cases i with
    | zero =>
      obtain rfl : y = x := by simpa using found
      rw [Nat.zero_mul, List.drop_zero, ← head, List.take_left]
    | succ i =>
      have tail := ih (fun z hz => even z (List.mem_cons_of_mem y hz)) (by simpa using found)
      have position : (i + 1) * size = y.length + i * size := by
        rw [head, Nat.succ_mul, Nat.add_comm]
      rw [position, List.drop_length_add_append, tail]

theorem flatten_modify_set {i r : Nat} (a : β) (even : ∀ x ∈ xs, x.length = size)
    (bound : i < xs.length) (inside : r < size) :
    (xs.modify i (·.set r a)).flatten = xs.flatten.set (size * i + r) a := by
  induction xs generalizing i with
  | nil => simp at bound
  | cons y others ih =>
    have head : y.length = size := even y List.mem_cons_self
    cases i with
    | zero =>
      rw [List.modify_zero_cons, List.flatten_cons, List.flatten_cons, Nat.mul_zero, Nat.zero_add,
        List.set_append_left r a (by omega)]
    | succ i =>
      have tail := ih (fun z hz => even z (List.mem_cons_of_mem y hz))
        (Nat.lt_of_succ_lt_succ bound)
      have position : size * (i + 1) + r - y.length = size * i + r := by
        rw [head, Nat.mul_succ]
        omega
      have behind : y.length ≤ size * (i + 1) + r := by
        rw [head, Nat.mul_succ]
        omega
      rw [List.modify_succ_cons, List.flatten_cons, List.flatten_cons, tail,
        List.set_append_right _ a behind, position]

end

end PersistentCollections.Blocks
