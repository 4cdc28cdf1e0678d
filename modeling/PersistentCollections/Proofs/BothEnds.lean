import PersistentCollections.Proofs.SliceHistory

/-! Walks from both ends. A cursor answers as a deque does that holds the items between its
ends: calls come at either end and in any order, and clones of the cursor go their own ways.
Where the two ends meet, no item is given out twice or left out. -/

namespace PersistentCollections

/-! ### Deques -/

namespace Deque

variable {α : Type} {items : List α}

/-- A call at one end of a deque. Items that are skipped are gone. -/
def answer (items : List α) : End × Walk.Call → Option α × List α
  | (.front, .next) => (items.head?, items.tail)
  | (.front, .nth skipped) => (items[skipped]?, items.drop (skipped + 1))
  | (.back, .next) => (items.getLast?, items.dropLast)
  | (.back, .nth skipped) =>
    (items.reverse[skipped]?, items.take (items.length - (skipped + 1)))

theorem answer_front (items : List α) (call : Walk.Call) :
    answer items (.front, call) = Walk.listAnswer items call := by
  cases call <;> rfl

theorem answer_back (items : List α) (call : Walk.Call) :
    answer items (.back, call) = ((Walk.listAnswer items.reverse call).1,
      (Walk.listAnswer items.reverse call).2.reverse) := by
  cases call with
  | next => simp [answer, Walk.listAnswer, List.head?_reverse]
  | nth skipped => simp [answer, Walk.listAnswer, List.drop_reverse]

def atFront (answers : List (End × Option α)) : List α :=
  answers.filterMap fun
    | (.front, a) => a
    | (.back, _) => none

def atBack (answers : List (End × Option α)) : List α :=
  answers.filterMap fun
    | (.back, a) => a
    | (.front, _) => none

/-- Items asked for one by one at the two ends, and those that were not asked for, are all
items, in order. -/
theorem given_append (items : List α) (ends : List End) :
    let r := Calls.run answer items (ends.map fun e => (e, .next))
    atFront (ends.zip r.1) ++ r.2 ++ (atBack (ends.zip r.1)).reverse = items := by
  induction ends generalizing items with
  | nil => simp [Calls.run, atFront, atBack]
  | cons e rest ih =>
    cases e with
    | front =>
      have later := ih items.tail
      cases items with
      | nil => simpa [Calls.run, answer, atFront, atBack] using later
      | cons a items => simpa [Calls.run, answer, atFront, atBack] using later
    | back =>
      have later := ih items.dropLast
      rcases List.eq_nil_or_concat' items with rfl | ⟨before, last, rfl⟩
      · simpa [Calls.run, answer, atFront, atBack] using later
      · have whole := congrArg (· ++ [last]) later
        simpa [Calls.run, answer, atFront, atBack] using whole

end Deque

/-! ### The two ends of a cursor -/

theorem window_concat {α : Type} {items : List α} {start stop : Nat} {a : α}
    (found : items[stop - 1]? = some a) (inside : start < stop) :
    (items.drop start).take (stop - start) =
      (items.drop start).take (stop - 1 - start) ++ [a] := by
  have last := window_cons found (show stop - 1 < stop by omega)
  have behind : stop - (stop - 1 + 1) = 0 := by omega
  rw [behind, List.take_zero] at last
  rw [← window_append items (show start ≤ stop - 1 by omega) (Nat.sub_le stop 1), last]

namespace Cursor

variable {α : Type} {c : Cursor α} {items : List α}

/-- These are the items between the two ends, and the ends have not passed each other. -/
structure Shows (c : Cursor α) (items : List α) : Prop where
  ready : c.Ready
  ordered : c.front ≤ c.back
  items : (c.vector.toList.drop c.front).take (c.back - c.front) = items

theorem ofRange_shows {v : TrieVector α} {start stop : Nat} (h : v.WellFormed)
    (ordered : start ≤ stop) (within : stop ≤ v.length) :
    (ofRange v start stop).Shows ((v.toList.drop start).take (stop - start)) := by
  obtain ⟨ready, vector, front, back⟩ := ofRange_ready h start within
  exact ⟨ready, by rw [front, back]; exact ordered, by rw [vector, front, back]⟩

namespace Shows

theorem remaining_eq (h : c.Shows items) : c.remaining = items.length := by
  have length := h.ready.vector.length_toList
  have within := h.ready.back_le
  rw [← h.items, List.length_take, List.length_drop, remaining]
  omega

theorem at? (h : c.Shows items) {i : Nat} (inside : i < c.back) :
    ∃ a, c.vector.toList[i]? = some a := by
  have length := h.ready.vector.length_toList
  have within := h.ready.back_le
  exact ⟨_, List.getElem?_eq_getElem (by omega)⟩

theorem met (h : c.Shows items) (outside : ¬c.front < c.back) :
    items = [] ∧ c.step = .ok (none, c) ∧ c.stepBack = .ok (none, c) := by
  have none := h.remaining_eq
  rw [remaining, Nat.sub_eq_zero_of_le (Nat.le_of_not_lt outside)] at none
  exact ⟨List.eq_nil_of_length_eq_zero none.symm, if_neg outside, if_neg outside⟩

end Shows

theorem keeps_shows : Walk.Keeps (Shows : Cursor α → List α → Prop) := by
  intro c items h
  refine ⟨h.remaining_eq, ?_⟩
  by_cases inside : c.front < c.back
  · obtain ⟨a, found⟩ := h.at? inside
    obtain ⟨leaf, moved, ready⟩ := h.ready.step_eq inside found
    have split := h.items
    rw [window_cons found inside] at split
    subst split
    exact ⟨_, moved, ready, inside, rfl⟩
  · obtain ⟨rfl, still, -⟩ := h.met inside
    exact ⟨c, still, h⟩

theorem step_reversed {a : Option α} {d : Cursor α} (moved : c.stepBack = .ok (a, d)) :
    Walk.step (Reversed.mk c) = .ok (a, Reversed.mk d) := by
  simp only [Walk.step, moved, bind, Except.bind, pure, Except.pure]

theorem keeps_shows_back :
    Walk.Keeps fun (r : Reversed α) (items : List α) => r.cursor.Shows items.reverse := by
  rintro ⟨c⟩ items h
  refine ⟨h.remaining_eq.trans List.length_reverse, ?_⟩
  by_cases inside : c.front < c.back
  · obtain ⟨a, found⟩ := h.at? (show c.back - 1 < c.back by omega)
    obtain ⟨leaf, moved, ready⟩ := h.ready.stepBack_eq inside found
    have split := h.items
    rw [window_concat found inside] at split
    have last := congrArg List.reverse split
    rw [List.reverse_append, List.reverse_reverse] at last
    subst last
    exact ⟨⟨_⟩, step_reversed moved, ready, Nat.le_sub_one_of_lt inside, by simp⟩
  · obtain ⟨none, -, still⟩ := h.met inside
    obtain rfl := List.reverse_eq_nil_iff.1 none
    exact ⟨⟨c⟩, step_reversed still, h⟩

def answer (c : Cursor α) : End × Walk.Call → Option α × Cursor α
  | (.front, call) => Walk.answer c call
  | (.back, call) =>
    ((Walk.answer (Reversed.mk c) call).1, (Walk.answer (Reversed.mk c) call).2.cursor)

theorem answer_alike : Calls.Alike answer Deque.answer (Shows : Cursor α → List α → Prop) := by
  rintro c items ⟨e, call⟩ h
  cases e with
  | front =>
    rw [Deque.answer_front]
    exact keeps_shows.alike c items call h
  | back =>
    have turned : (Reversed.mk c).cursor.Shows items.reverse.reverse := by
      rwa [List.reverse_reverse]
    rw [Deque.answer_back]
    exact keeps_shows_back.alike ⟨c⟩ items.reverse call turned

structure Stands (c : Cursor α) (items : List α) : Prop where
  ordered : c.front ≤ c.back
  remaining : c.remaining = items.length
  /-- A step at either end is answered. -/
  unbreached : (∃ r, c.step = .ok r) ∧ ∃ r, c.stepBack = .ok r
  /-- Without items it changes no more, and so answers none for ever. -/
  exhausted : items = [] → ∀ call, c.answer call = (none, c)

theorem Shows.unbreached (h : c.Shows items) :
    (∃ r, c.step = .ok r) ∧ ∃ r, c.stepBack = .ok r := by
  by_cases inside : c.front < c.back
  · obtain ⟨a, first⟩ := h.at? inside
    obtain ⟨b, last⟩ := h.at? (show c.back - 1 < c.back by omega)
    obtain ⟨_, moved, _⟩ := h.ready.step_eq inside first
    obtain ⟨_, movedBack, _⟩ := h.ready.stepBack_eq inside last
    exact ⟨⟨_, moved⟩, _, movedBack⟩
  · obtain ⟨-, still, stillBack⟩ := h.met inside
    exact ⟨⟨_, still⟩, _, stillBack⟩

theorem Shows.stands (h : c.Shows items) : c.Stands items := by
  refine ⟨h.ordered, h.remaining_eq, h.unbreached, fun none => ?_⟩
  have outside : ¬c.front < c.back := by
    have count := h.remaining_eq
    rw [none, List.length_nil, remaining] at count
    omega
  obtain ⟨-, still, stillBack⟩ := h.met outside
  rintro ⟨e, call⟩
  cases e with
  | front => exact Walk.answer_of_still still call
  | back => rw [answer, Walk.answer_of_still (step_reversed stillBack)]

end Cursor

/-! ### Cursors and their clones -/

namespace Clones

/-- What is asked for: items at an end of one of those at hand, or a clone of one. -/
inductive Request where
  | call (number : Nat) (call : End × Walk.Call)
  | clone (number : Nat)

variable {γ δ α : Type} {answer : γ → End × Walk.Call → Option α × γ}
  {model : δ → End × Walk.Call → Option α × δ} {R : γ → δ → Prop}

/-- What the one that is called answers, and all that are at hand then. A clone comes last. -/
def serve (answer : γ → End × Walk.Call → Option α × γ) (all : List γ) :
    Request → Option (Option α) × List γ
  | .call number call =>
    match all[number]? with
    | some c => (some (answer c call).1, all.set number (answer c call).2)
    | none => (none, all)
  | .clone number => (none, all ++ all[number]?.toList)

theorem rel_set {all : List γ} {others : List δ} {c : γ} {d : δ}
    (h : List.Forall₂ R all others) (alike : R c d) (number : Nat) :
    List.Forall₂ R (all.set number c) (others.set number d) := by
  induction h generalizing number with
  | nil => exact .nil
  | cons first rest ih =>
    cases number with
    | zero => exact .cons alike rest
    | succ number => exact .cons first (ih number)

theorem serve_alike (h : Calls.Alike answer model R) :
    Calls.Alike (serve answer) (serve model) (List.Forall₂ R) := by
  intro all others request related
  cases request with
  | call number call =>
    have found := History.rel_getElem? related number
    simp only [serve]
    generalize all[number]? = c at found
    generalize others[number]? = d at found
    cases found with
    | none => exact ⟨rfl, related⟩
    | some called =>
      obtain ⟨same, kept⟩ := h _ _ call called
      exact ⟨congrArg some same, rel_set related kept number⟩
  | clone number =>
    have found := History.rel_toList (History.rel_getElem? related number)
    exact ⟨rfl, List.rel_append related found⟩

end Clones

namespace Cursor

variable {α : Type} {c : Cursor α} {items : List α}

/-- Nothing that is asked of a cursor and of clones of it tells them from deques. -/
structure ActsAs (c : Cursor α) (items : List α) : Prop where
  answers : ∀ requests, (Calls.run (Clones.serve answer) [c] requests).1 =
    (Calls.run (Clones.serve Deque.answer) [items] requests).1
  stands : ∀ requests, List.Forall₂ Stands (Calls.run (Clones.serve answer) [c] requests).2
    (Calls.run (Clones.serve Deque.answer) [items] requests).2
  /-- Items given out at the two ends, and those still to come, are all items, in order. -/
  meets : ∀ ends : List End,
    let r := Calls.run answer c (ends.map fun e => (e, .next))
    Deque.atFront (ends.zip r.1) ++ (Walk.rest r.2).1 ++ (Deque.atBack (ends.zip r.1)).reverse =
      items

theorem Shows.actsAs (h : c.Shows items) : c.ActsAs items := by
  have start : List.Forall₂ Shows [c] [items] := .cons h .nil
  have served := (Clones.serve_alike answer_alike).run start
  refine ⟨fun requests => (served requests).1, fun requests => ?_, fun ends => ?_⟩
  · exact (served requests).2.imp fun _ _ shown => shown.stands
  · obtain ⟨same, left⟩ := answer_alike.run h (ends.map fun e => (e, Walk.Call.next))
    have all := Deque.given_append items ends
    dsimp only at all ⊢
    rwa [← same, ← keeps_shows.rest_eq left] at all

end Cursor

/-! ### Vectors and slices -/

/-- Every range of a vector is walked from both ends, and no other range is. -/
structure TrieVector.WalkedFromBothEnds (v : TrieVector α) (items : List α) : Prop where
  cursor : v.cursor.ActsAs items
  cursorOn : ∀ start stop, start ≤ stop → stop ≤ items.length →
    ∃ c, v.cursorOn start stop = .ok c ∧ c.ActsAs ((items.drop start).take (stop - start))
  cursorOn_refused : ∀ start stop, ¬(start ≤ stop ∧ stop ≤ items.length) →
    v.cursorOn start stop = .error (.invalidRange start stop items.length)

structure Slice.WalkedFromBothEnds (s : Slice α) (items : List α) : Prop where
  cursor : s.cursor.ActsAs items
  slice : ∀ start stop, start ≤ stop → stop ≤ items.length →
    ∃ t, s.slice start stop = .ok t ∧ t.cursor.ActsAs ((items.drop start).take (stop - start))
  slice_refused : ∀ start stop, ¬(start ≤ stop ∧ stop ≤ items.length) →
    s.slice start stop = .error (.invalidRange start stop items.length)

theorem TrieVector.Represents.walkedFromBothEnds {v : TrieVector α} {items : List α}
    (h : v.Represents items) : v.WalkedFromBothEnds items := by
  have range {start stop : Nat} (ordered : start ≤ stop) (within : stop ≤ items.length) :
      (Cursor.ofRange v start stop).ActsAs ((items.drop start).take (stop - start)) := by
    have shows := Cursor.ofRange_shows h.wellFormed ordered (h.length ▸ within)
    rw [h.toList] at shows
    exact shows.actsAs
  refine ⟨?_, fun start stop ordered within => ⟨_, ?_, range ordered within⟩,
    fun start stop outside => ?_⟩
  · have whole := range (Nat.zero_le _) (Nat.le_refl _)
    rw [window_all, ← h.length] at whole
    exact whole
  · rw [cursorOn, checkRange_ok_iff.2 ⟨ordered, h.length ▸ within⟩]
    rfl
  · rw [cursorOn, h.length, checkRange_of_not outside]
    rfl

theorem Slice.Represents.walkedFromBothEnds {s : Slice α} {items : List α}
    (h : s.Represents items) : s.WalkedFromBothEnds items := by
  have whole {s : Slice α} {items : List α} (h : s.Represents items) : s.cursor.ActsAs items := by
    obtain ⟨vector, start_le, stop_le⟩ := h.wellFormed
    have shows := Cursor.ofRange_shows vector start_le stop_le
    rw [← h.contents]
    exact shows.actsAs
  refine ⟨whole h, fun start stop ordered within => ?_, fun start stop => h.slice_refused⟩
  obtain ⟨t, made, part⟩ := h.slice ordered within
  exact ⟨t, made, whole part⟩

/-- The cursors on every version of every history are deques of what the version holds. -/
theorem histories_walked_from_both_ends {α : Type} (vectorSteps : List (TrieVector.VersionStep α))
    (steps : List (Slice.VersionStep α)) :
    let vectors := History.run TrieVector.version [] vectorSteps
    let lists := History.run TrieVector.listVersion [] vectorSteps
    List.Forall₂ TrieVector.WalkedFromBothEnds vectors lists ∧
      List.Forall₂ Slice.WalkedFromBothEnds (History.run (Slice.version vectors) [] steps)
        (History.run (Slice.listVersion lists) [] steps) := by
  intro vectors lists
  obtain ⟨backing, windows⟩ := Slice.histories_represent vectorSteps steps
  exact ⟨backing.imp fun _ _ h => h.walkedFromBothEnds,
    windows.imp fun _ _ h => h.walkedFromBothEnds⟩

end PersistentCollections
