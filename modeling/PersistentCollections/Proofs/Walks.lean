import PersistentCollections.Walk

/-! What walks give out. A walk is set against the list of the items that are to come of
it: each call answers what the list does, however many calls there were before. -/

namespace PersistentCollections

namespace Walk

variable {γ α : Type} [Walk γ α] {R : γ → List α → Prop} {c : γ} {items : List α}

/-- A step gives out the first of the items to come, and the others are those to come of
the walk after it. Behind the last item every step gives out none. -/
def Keeps (R : γ → List α → Prop) : Prop :=
  ∀ c items, R c items →
    remaining c = items.length ∧ ∃ d, step c = .ok (items.head?, d) ∧ R d items.tail

def Lists (c : γ) (items : List α) : Prop :=
  ∀ n, (nextMany c n).1 = (List.range n).map fun i => items[i]?

theorem Keeps.next_eq (h : Keeps R) (start : R c items) :
    (next c).1 = items.head? ∧ R (next c).2 items.tail := by
  obtain ⟨_, d, moved, kept⟩ := h c items start
  simp [next, moved, kept]

theorem Keeps.lists (h : Keeps R) (start : R c items) : Lists c items := by
  have general (n : Nat) (seen : List (Option α)) :
      (nextMany.go n c seen).1 = seen.reverse ++ (List.range n).map fun i => items[i]? := by
    induction n generalizing c items seen with
    | zero => simp [nextMany.go]
    | succ n ih =>
      obtain ⟨first, kept⟩ := h.next_eq start
      rw [nextMany.go, ih kept, first, List.range_succ_eq_map]
      simp [Function.comp_def, List.head?_eq_getElem?]
  exact fun n => general n []

theorem Keeps.rest_eq (h : Keeps R) (start : R c items) : (rest c).1 = items := by
  have general (seen : List α) : (rest.go items.length c seen).1 = seen.reverse ++ items := by
    induction items generalizing c seen with
    | nil => simp [rest.go]
    | cons a items ih =>
      obtain ⟨_, d, moved, kept⟩ := h c _ start
      have taken : next c = (some a, d) := by simp [next, moved]
      rw [List.length_cons, rest.go, taken]
      simp [ih kept]
  rw [rest, (h c items start).1]
  exact general []

theorem Keeps.nth_eq (h : Keeps R) (start : R c items) (skipped : Nat) :
    (nth c skipped).1 = items[skipped]? ∧ R (nth c skipped).2 (items.drop (skipped + 1)) := by
  induction skipped generalizing c items with
  | zero =>
    rw [nth, ← List.head?_eq_getElem?, List.drop_one]
    exact h.next_eq start
  | succ n ih =>
    obtain ⟨_, d, moved, kept⟩ := h c items start
    cases items with
    | nil =>
      have none : next c = (none, d) := by simp [next, moved]
      rw [nth, none]
      exact ⟨rfl, kept⟩
    | cons a items =>
      have taken : next c = (some a, d) := by simp [next, moved]
      rw [nth, taken]
      exact ih kept

/-- A walk that gives out these items, always knows how many are left, and in the end
stands still. -/
inductive Gives : γ → List α → Prop
  | done {c : γ} : step c = .ok (none, c) → remaining c = 0 → Gives c []
  | item {c d : γ} {a : α} {items : List α} : step c = .ok (some a, d) →
      remaining c = items.length + 1 → Gives d items → Gives c (a :: items)

theorem keeps_gives : Keeps (Gives : γ → List α → Prop) := by
  intro c items h
  cases h with
  | done still count => exact ⟨count, c, still, .done still count⟩
  | item moved count later => exact ⟨count, _, moved, later⟩

theorem Gives.remaining_eq (h : Gives c items) : remaining c = items.length :=
  (keeps_gives c items h).1

theorem Gives.rest_eq (h : Gives c items) : (rest c).1 = items := keeps_gives.rest_eq h

end Walk

/-! ### Series of calls -/

namespace Calls

variable {γ δ σ β : Type} {answer : γ → σ → β × γ} {model : δ → σ → β × δ} {R : γ → δ → Prop}

def run (answer : γ → σ → β × γ) (c : γ) : List σ → List β × γ
  | [] => ([], c)
  | call :: rest =>
    let later := run answer (answer c call).2 rest
    ((answer c call).1 :: later.1, later.2)

/-- Every call is answered alike on both sides, and leaves what is again alike. -/
def Alike (answer : γ → σ → β × γ) (model : δ → σ → β × δ) (R : γ → δ → Prop) : Prop :=
  ∀ c d call, R c d → (answer c call).1 = (model d call).1 ∧ R (answer c call).2 (model d call).2

theorem Alike.run (h : Alike answer model R) {c : γ} {d : δ} (start : R c d) (calls : List σ) :
    (run answer c calls).1 = (run model d calls).1 ∧
      R (run answer c calls).2 (run model d calls).2 := by
  induction calls generalizing c d with
  | nil => exact ⟨rfl, start⟩
  | cons call rest ih =>
    obtain ⟨first, kept⟩ := h c d call start
    obtain ⟨later, behind⟩ := ih kept
    refine ⟨?_, behind⟩
    rw [Calls.run, Calls.run, first, later]

end Calls

namespace Walk

variable {γ α : Type} [Walk γ α] {R : γ → List α → Prop} {c : γ}

/-- A call on a walk: for the next item, or for the one behind so many others. -/
inductive Call where
  | next
  | nth (skipped : Nat)

def answer (c : γ) : Call → Option α × γ
  | .next => next c
  | .nth skipped => nth c skipped

def listAnswer (items : List α) : Call → Option α × List α
  | .next => (items.head?, items.tail)
  | .nth skipped => (items[skipped]?, items.drop (skipped + 1))

theorem Keeps.alike (h : Keeps R) : Calls.Alike answer listAnswer R := by
  intro c items call start
  cases call with
  | next => exact h.next_eq start
  | nth skipped => exact h.nth_eq start skipped

/-- Two walks, of any kinds, that no calls tell apart, nor what they leave. -/
def Agree {δ : Type} [Walk δ α] (c : γ) (d : δ) : Prop :=
  ∀ calls, (Calls.run answer c calls).1 = (Calls.run answer d calls).1 ∧
    remaining (Calls.run answer c calls).2 = remaining (Calls.run answer d calls).2

theorem Keeps.agree {δ : Type} [Walk δ α] {S : δ → List α → Prop} {d : δ} {items : List α}
    (h : Keeps R) (start : R c items) (other : Keeps S) (same : S d items) : Agree c d := by
  intro calls
  obtain ⟨answers, left⟩ := h.alike.run start calls
  obtain ⟨others, leftToo⟩ := other.alike.run same calls
  exact ⟨answers.trans others.symm, (h _ _ left).1.trans (other _ _ leftToo).1.symm⟩

theorem answer_of_still (still : step c = .ok (none, c)) (call : Call) :
    answer c call = (none, c) := by
  have unmoved : next c = (none, c) := by rw [next, still]
  cases call with
  | next => exact unmoved
  | nth skipped =>
    cases skipped with
    | zero => exact unmoved
    | succ n => rw [answer, nth, unmoved]

end Walk

end PersistentCollections
