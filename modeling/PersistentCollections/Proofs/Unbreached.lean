import Mathlib.Logic.Relation
import PersistentCollections.Proofs.SliceHistory
import PersistentCollections.Proofs.WordArithmetic

/-! No operation on a vector or a slice breaches, whatever its arguments are. An operation
that walks over a tree is set against its checked form, which stops at the first breach;
the two agree, so what the operation does after a breach is never done. An append is taken
apart into steps: in every state on its way there is a next step until no item is left, the
tail holds a leaf at most, and the numbers fit in words if the length does. -/

namespace PersistentCollections

/-- An operation behind the check of its arguments: refused ones do not reach it. -/
def guarded {β : Type} (admitted : Except AccessError Unit) (operation : Except Breach β) :
    Except Breach (Except AccessError β) :=
  match admitted with
  | .ok _ => operation.map .ok
  | .error refusal => .ok (.error refusal)

theorem guarded_eq {β : Type} {admitted : Except AccessError Unit} {operation : Except Breach β}
    {answer : Except AccessError β}
    (accepted : admitted = .ok () → operation.map .ok = .ok answer) :
    guarded admitted operation = .ok (admitted >>= fun _ => answer) := by
  cases admitted with
  | error refusal => rfl
  | ok _ => exact accepted rfl

/-! ### Walks -/

namespace Walk

variable {γ α : Type}

/-- The answers of steps and the walk after them, up to the first breach. -/
def follow : List (γ → Except Breach (Option α × γ)) → γ →
    Except Breach (List (Option α) × γ)
  | [], c => .ok ([], c)
  | step :: rest, c => do
    let (a, d) ← step c
    let (later, e) ← follow rest d
    return (a :: later, e)

theorem follow_ok {P : γ → Prop} {steps : List (γ → Except Breach (Option α × γ))}
    (kept : ∀ step ∈ steps, ∀ c, P c → ∃ a d, step c = .ok (a, d) ∧ P d) {c : γ} (start : P c) :
    ∃ answers d, follow steps c = .ok (answers, d) ∧ P d := by
  induction steps generalizing c with
  | nil => exact ⟨[], c, rfl, start⟩
  | cons step rest ih =>
    obtain ⟨a, d, moved, next⟩ := kept step List.mem_cons_self c start
    obtain ⟨later, e, run, result⟩ := ih (fun s hs => kept s (List.mem_cons_of_mem _ hs)) next
    refine ⟨a :: later, e, ?_, result⟩
    simp only [follow, moved, run, bind, Except.bind, pure, Except.pure]

end Walk

namespace Cursor

variable {α : Type} {c : Cursor α}

def stepAt : End → Cursor α → Except Breach (Option α × Cursor α)
  | .front => step
  | .back => stepBack

def follow (c : Cursor α) (ends : List End) : Except Breach (List (Option α) × Cursor α) :=
  Walk.follow (ends.map stepAt) c

theorem Ready.stepAt (h : c.Ready) (e : End) :
    ∃ a d, Cursor.stepAt e c = .ok (a, d) ∧ d.Ready := by
  by_cases inside : c.front < c.back
  · have length := h.vector.length_toList
    have within := h.back_le
    have item {i : Nat} (bound : i < c.back) : ∃ a, c.vector.toList[i]? = some a :=
      ⟨_, List.getElem?_eq_getElem (by omega)⟩
    cases e with
    | front =>
      obtain ⟨a, found⟩ := item inside
      obtain ⟨leaf, moved, ready⟩ := h.step_eq inside found
      exact ⟨some a, _, moved, ready⟩
    | back =>
      obtain ⟨a, found⟩ := item (show c.back - 1 < c.back by omega)
      obtain ⟨leaf, moved, ready⟩ := h.stepBack_eq inside found
      exact ⟨some a, _, moved, ready⟩
  · refine ⟨none, c, ?_, h⟩
    cases e <;> simp only [Cursor.stepAt, step, stepBack, inside, if_false]

theorem Ready.follow (h : c.Ready) (ends : List End) :
    ∃ answers d, c.follow ends = .ok (answers, d) ∧ d.Ready := by
  refine Walk.follow_ok (fun step member c ready => ?_) h
  obtain ⟨e, -, rfl⟩ := List.mem_map.1 member
  exact ready.stepAt e

end Cursor

namespace LeafCursor

variable {α : Type} {c : LeafCursor α}

def follow (c : LeafCursor α) (count : Nat) :
    Except Breach (List (Option α) × LeafCursor α) :=
  Walk.follow (List.replicate count step) c

theorem Ready.follow (h : c.Ready) (count : Nat) :
    ∃ answers d, c.follow count = .ok (answers, d) ∧ d.Ready := by
  refine Walk.follow_ok (fun step member c ready => ?_) h
  obtain rfl := List.eq_of_mem_replicate member
  rcases ready.step_cases with ⟨still, -⟩ | ⟨a, d, moved, next, -⟩
  · exact ⟨none, c, still, ready⟩
  · exact ⟨some a, d, moved, next⟩

end LeafCursor

/-! ### Appending, step by step -/

namespace TrieVector

variable {α : Type} {v w : TrieVector α} {items rest : List α}

/-- A step of an append, from a vector and the items that are still to come. -/
inductive AppendStep : TrieVector α × List α → TrieVector α × List α → Prop
  /-- A full tail moves into the tree. -/
  | flush {v : TrieVector α} {r : Logged (TrieVector α)} {a : α} {rest : List α} :
      v.tail.length = width → v.flushTailChecked = .ok r →
      AppendStep (v, a :: rest) (r.value, a :: rest)
  /-- The tail takes as many items as it has room for. -/
  | fill {v : TrieVector α} {a : α} {rest : List α} : v.tail.length < width →
      AppendStep (v, a :: rest)
        (v.addToTail (a :: rest.take (width - v.tail.length - 1)),
          rest.drop (width - v.tail.length - 1))

def Passes (v : TrieVector α) (items : List α) (w : TrieVector α) (rest : List α) : Prop :=
  Relation.ReflTransGen AppendStep (v, items) (w, rest)

theorem AppendStep.intact {s t : TrieVector α × List α} (step : AppendStep s t)
    (h : s.1.Intact) : t.1.Intact := by
  cases step with
  | flush full run =>
    obtain ⟨r, same, flushed⟩ := h.flush full
    obtain rfl := Except.ok.inj (run.symm.trans same)
    exact flushed.intact
  | @fill v a rest room =>
    have fits : v.tail.length + (a :: rest.take (width - v.tail.length - 1)).length ≤ width := by
      rw [List.length_cons, List.length_take]
      omega
    exact (wellFormed_iff.1 (h.addToTail fits (List.cons_ne_nil _ _))).1

theorem AppendStep.resumes {s t : TrieVector α × List α} (step : AppendStep s t)
    (h : s.1.Intact) (events : List Event) :
    ∃ later, s.1.appendChecked events s.2 = t.1.appendChecked later t.2 := by
  cases step with
  | @flush v r a rest full run =>
    obtain ⟨r, same, flushed⟩ := h.flush full
    obtain rfl := Except.ok.inj (run.symm.trans same)
    have room : r.value.tail.length < width := by simp [flushed.tail, width]
    refine ⟨events ++ r.events, ?_⟩
    rw [appendChecked_cons (.inl ⟨full, run⟩), appendChecked_cons (.inr ⟨room, rfl⟩),
      List.append_nil]
  | fill room => exact ⟨_, appendChecked_cons (.inr ⟨room, rfl⟩) events _ _⟩

theorem AppendStep.run {s t : TrieVector α × List α}
    (steps : Relation.ReflTransGen AppendStep s t) (h : s.1.Intact) (events : List Event) :
    t.1.Intact ∧ ∃ later, s.1.appendChecked events s.2 = t.1.appendChecked later t.2 := by
  induction steps with
  | refl => exact ⟨h, events, rfl⟩
  | tail _ step ih =>
    obtain ⟨intact, later, same⟩ := ih
    obtain ⟨further, next⟩ := step.resumes intact later
    exact ⟨step.intact intact, further, same.trans next⟩

theorem Intact.appendStep (h : w.Intact) (more : rest ≠ []) :
    ∃ next, AppendStep (w, rest) next := by
  obtain ⟨a, others, rfl⟩ := List.exists_cons_of_ne_nil more
  by_cases full : w.tail.length = width
  · obtain ⟨r, run, -⟩ := h.flush full
    exact ⟨_, .flush full run⟩
  · exact ⟨_, .fill (Nat.lt_of_le_of_ne h.tail_le full)⟩

theorem HasRoom.passes {r : Logged (TrieVector α)} (start : v.HasRoom r)
    (room : r.value.tail.length < width) (a : α) (rest : List α) :
    Passes v (a :: rest)
      (r.value.addToTail (a :: rest.take (width - r.value.tail.length - 1)))
      (rest.drop (width - r.value.tail.length - 1)) := by
  rcases start with ⟨full, run⟩ | ⟨_, rfl⟩
  · exact .tail (.single (.flush full run)) (.fill room)
  · exact .single (.fill room)

theorem WellFormed.appendChecked_passes {events : List Event} {r : Logged (TrieVector α)}
    (h : v.WellFormed) (run : v.appendChecked events items = .ok r) :
    Passes v items r.value [] := by
  refine h.induction_on_turns items (P := fun v items => ∀ events,
    v.appendChecked events items = .ok r → Passes v items r.value []) ?_ ?_ events run
  · intro v _ events run
    rw [TrieVector.appendChecked] at run
    cases run
    exact .refl
  · intro v start a rest k _ hasRoom _ room _ space later events run
    rw [appendChecked_cons hasRoom, space] at run
    exact .trans (space ▸ hasRoom.passes room a rest) (later _ run)

/-- What holds in every state of an append: the append goes on from there. -/
structure Moment (v : TrieVector α) (items : List α) (w : TrieVector α) (rest : List α) :
    Prop where
  tail_le : w.tail.length ≤ width
  fitsWords : w.length < 2 ^ 64 → w.FitsWords
  appendStep : rest ≠ [] → ∃ next, AppendStep (w, rest) next
  resumes : ∃ events, v.appendChecked [] items = w.appendChecked events rest

theorem Passes.moment (passes : Passes v items w rest) (h : v.Intact) :
    Moment v items w rest := by
  obtain ⟨intact, resumes⟩ := AppendStep.run passes h []
  exact ⟨intact.tail_le, intact.fitsWords, intact.appendStep, resumes⟩

/-! ### Vectors -/

/-- No call on a vector breaches: with any arguments it answers as its checked form does. -/
structure Unbreached (v : TrieVector α) : Prop where
  fitsWords : v.length < 2 ^ 64 → v.FitsWords
  get : ∀ index, guarded (checkIndex index v.length) (v.readChecked index) = .ok (v.get index)
  set : ∀ index a,
    guarded (checkIndex index v.length) (v.replaceChecked index a) = .ok (v.set index a)
  append : ∀ items, v.appendChecked [] items = .ok (v.append items)
  passes : ∀ items, Passes v items (v.append items).value []
  moment : ∀ items w rest, Passes v items w rest → Moment v items w rest
  cursor : Cursor.ofRangeChecked v 0 v.length = .ok v.cursor
  cursorOn : ∀ start stop,
    guarded (checkRange start stop v.length) (Cursor.ofRangeChecked v start stop) =
      .ok (v.cursorOn start stop)
  slice : ∀ start stop s, v.slice start stop = .ok s → s.start ≤ s.stop ∧ s.stop ≤ s.vector.length
  follow : ∀ start stop, start ≤ stop → stop ≤ v.length → ∀ ends,
    ∃ r, (Cursor.ofRange v start stop).follow ends = .ok r
  followLeaves : ∀ start stop, start ≤ stop → stop ≤ v.length → ∀ count,
    ∃ r, (LeafCursor.ofRange v start stop).follow count = .ok r

theorem slice_bounds {start stop : Nat} {s : Slice α} (made : v.slice start stop = .ok s) :
    s.start ≤ s.stop ∧ s.stop ≤ s.vector.length := by
  by_cases valid : start ≤ stop ∧ stop ≤ v.length
  · rw [TrieVector.slice, checkRange_ok_iff.2 valid] at made
    cases made
    exact valid
  · rw [TrieVector.slice, checkRange_of_not valid] at made
    cases made

namespace WellFormed

theorem get_checked (h : v.WellFormed) (index : Nat) :
    guarded (checkIndex index v.length) (v.readChecked index) = .ok (v.get index) := by
  by_cases inside : index < v.length
  · have bound : index < v.toList.length := h.length_toList ▸ inside
    have read := h.readChecked_eq (List.getElem?_eq_getElem bound)
    rw [checkIndex_ok_iff.2 inside, TrieVector.get, get?, if_pos inside, read]
    rfl
  · rw [checkIndex_of_le (Nat.le_of_not_lt inside), TrieVector.get, get?, if_neg inside]
    rfl

theorem replaceChecked_ok {index : Nat} (h : v.WellFormed) (a : α) (inside : index < v.length) :
    v.replaceChecked index a = .ok (v.replace index a) := by
  obtain ⟨w, run, -⟩ := h.replaceChecked a inside
  rw [replace, run]

theorem set_checked (h : v.WellFormed) (index : Nat) (a : α) :
    guarded (checkIndex index v.length) (v.replaceChecked index a) = .ok (v.set index a) := by
  refine guarded_eq fun accepted => ?_
  rw [h.replaceChecked_ok a (checkIndex_ok_iff.1 accepted)]
  rfl

theorem appendChecked_ok (h : v.WellFormed) (items : List α) :
    v.appendChecked [] items = .ok (v.append items) := by
  obtain ⟨r, run, -⟩ := h.appendChecked [] items
  rw [TrieVector.append, run]

theorem cursorOn_checked (h : v.WellFormed) (start stop : Nat) :
    guarded (checkRange start stop v.length) (Cursor.ofRangeChecked v start stop) =
      .ok (v.cursorOn start stop) := by
  refine guarded_eq fun accepted => ?_
  rw [Cursor.ofRangeChecked_eq h start (checkRange_ok_iff.1 accepted).2]
  rfl

theorem unbreached (h : v.WellFormed) : v.Unbreached where
  fitsWords := (wellFormed_iff.1 h).1.fitsWords
  get := h.get_checked
  set := h.set_checked
  append := h.appendChecked_ok
  passes items := h.appendChecked_passes (h.appendChecked_ok items)
  moment _ _ _ passes := passes.moment (wellFormed_iff.1 h).1
  cursor := Cursor.ofRangeChecked_eq h 0 (Nat.le_refl _)
  cursorOn := h.cursorOn_checked
  slice _ _ _ made := slice_bounds made
  follow start stop _ within ends := by
    obtain ⟨answers, d, run, -⟩ := (Cursor.ofRange_ready h start within).1.follow ends
    exact ⟨(answers, d), run⟩
  followLeaves start stop ordered within count := by
    have ready : (LeafCursor.ofRange v start stop).Ready := ⟨h, ordered, within⟩
    obtain ⟨answers, d, run, -⟩ := ready.follow count
    exact ⟨(answers, d), run⟩

end WellFormed

end TrieVector

/-! ### Slices -/

namespace Slice

variable {α : Type} {s : Slice α} {v : TrieVector α}

def overwriteChecked (v : TrieVector α) (stop : Nat) :
    List α → Except Breach (TrieVector α × Nat × List α)
  | [] => .ok (v, stop, [])
  | a :: rest =>
    if stop < v.length then do overwriteChecked (← v.replaceChecked stop a) (stop + 1) rest
    else .ok (v, stop, a :: rest)

def appendChecked (s : Slice α) (items : List α) : Except Breach (Logged (Slice α)) := do
  let (v, stop, left) ← overwriteChecked s.vector s.stop items
  if stop = v.length then
    let longer ← v.appendChecked [] left
    return longer.map fun w => ⟨w, s.start, w.length⟩
  else
    return .pure ⟨v, s.start, stop⟩

theorem overwriteChecked_ok {stop : Nat} (h : v.WellFormed) (items : List α) :
    overwriteChecked v stop items = .ok (overwrite v stop items) := by
  induction items generalizing v stop with
  | nil => rfl
  | cons a rest ih =>
    by_cases inside : stop < v.length
    · have vector := (h.replace_eq a inside).1
      rw [overwriteChecked, overwrite, if_pos inside, if_pos inside, h.replaceChecked_ok a inside]
      exact ih vector
    · rw [overwriteChecked, overwrite, if_neg inside, if_neg inside]

structure Unbreached (s : Slice α) : Prop where
  start_le : s.start ≤ s.stop
  stop_le : s.stop ≤ s.vector.length
  vector : s.vector.Unbreached
  get : ∀ index,
    guarded (checkIndex index s.length) (s.vector.readChecked (s.start + index)) =
      .ok (s.get index)
  set : ∀ index a,
    guarded (checkIndex index s.length) (do
      return { s with vector := ← s.vector.replaceChecked (s.start + index) a }) =
      .ok (s.set index a)
  append : ∀ items, s.appendChecked items = .ok (s.append items)
  /-- The vectors on which an append overwrites elements, one after the other. -/
  overwritten : ∀ items, (overwrite s.vector s.stop items).1.Unbreached
  cursor : Cursor.ofRangeChecked s.vector s.start s.stop = .ok s.cursor
  slice : ∀ start stop t, s.slice start stop = .ok t → t.start ≤ t.stop ∧ t.stop ≤ t.vector.length
  follow : ∀ ends, ∃ r, s.cursor.follow ends = .ok r
  followLeaves : ∀ count, ∃ r, s.leafCursor.follow count = .ok r

namespace WellFormed

theorem get_checked (h : s.WellFormed) (index : Nat) :
    guarded (checkIndex index s.length) (s.vector.readChecked (s.start + index)) =
      .ok (s.get index) := by
  refine guarded_eq fun accepted => ?_
  have bound := h.start_add_lt (checkIndex_ok_iff.1 accepted)
  have read := h.vector.get_checked (s.start + index)
  rw [checkIndex_ok_iff.2 bound] at read
  exact read

theorem set_checked (h : s.WellFormed) (index : Nat) (a : α) :
    guarded (checkIndex index s.length) (do
      return { s with vector := ← s.vector.replaceChecked (s.start + index) a }) =
      .ok (s.set index a) := by
  refine guarded_eq fun accepted => ?_
  have bound := h.start_add_lt (checkIndex_ok_iff.1 accepted)
  rw [h.vector.replaceChecked_ok a bound]
  rfl

theorem appendChecked_ok (h : s.WellFormed) (items : List α) :
    s.appendChecked items = .ok (s.append items) := by
  obtain ⟨written, left, v, run, result⟩ := overwrite_eq h.vector h.stop_le items
  have checked : overwriteChecked s.vector s.stop items = .ok (v, s.stop + written.length, left) :=
    run ▸ overwriteChecked_ok h.vector items
  by_cases reached : s.stop + written.length = v.length
  · simp only [appendChecked, checked, append, run, reached, if_true,
      result.vector.appendChecked_ok left, bind, Except.bind, pure, Except.pure]
  · simp only [appendChecked, checked, append, run, reached, if_false, bind, Except.bind, pure,
      Except.pure]

theorem slice_bounds {start stop : Nat} {t : Slice α} (h : s.WellFormed)
    (made : s.slice start stop = .ok t) : t.start ≤ t.stop ∧ t.stop ≤ t.vector.length := by
  by_cases valid : start ≤ stop ∧ stop ≤ s.length
  · have part := (h.slice_eq valid.1 valid.2).1
    rw [Slice.slice, checkRange_ok_iff.2 valid] at made
    cases made
    exact ⟨part.start_le, part.stop_le⟩
  · rw [Slice.slice, checkRange_of_not valid] at made
    cases made

theorem unbreached (h : s.WellFormed) : s.Unbreached where
  start_le := h.start_le
  stop_le := h.stop_le
  vector := h.vector.unbreached
  get := h.get_checked
  set := h.set_checked
  append := h.appendChecked_ok
  overwritten items := by
    obtain ⟨written, left, v, run, result⟩ := overwrite_eq h.vector h.stop_le items
    rw [run]
    exact result.vector.unbreached
  cursor := Cursor.ofRangeChecked_eq h.vector s.start h.stop_le
  slice _ _ _ made := h.slice_bounds made
  follow := h.vector.unbreached.follow s.start s.stop h.start_le h.stop_le
  followLeaves := h.vector.unbreached.followLeaves s.start s.stop h.start_le h.stop_le

end WellFormed

end Slice

/-- Over every history of vectors, and of slices on them, no call breaches. -/
theorem histories_unbreached {α : Type} (vectorSteps : List (TrieVector.VersionStep α))
    (steps : List (Slice.VersionStep α)) :
    (∀ v ∈ History.run TrieVector.version [] vectorSteps, v.Unbreached) ∧
      ∀ s ∈ History.run (Slice.version (History.run TrieVector.version [] vectorSteps)) [] steps,
        s.Unbreached := by
  have vectors : ∀ v ∈ History.run TrieVector.version [] vectorSteps, v.WellFormed :=
    History.run_forall TrieVector.version_wellFormed (by simp) vectorSteps
  refine ⟨fun v member => (vectors v member).unbreached, fun s member => ?_⟩
  have slices : ∀ s ∈ History.run
      (Slice.version (History.run TrieVector.version [] vectorSteps)) [] steps, s.WellFormed :=
    History.run_forall (Slice.version_wellFormed vectors) (by simp) steps
  exact (slices s member).unbreached

theorem histories_unbreached_views :
    let first := (TrieVector.ofList (List.range 1057)).value
    let second := (first.push 7).value
    let whole := Slice.ofVector second
    let longer := (whole.append [8, 9]).value
    let vectors := History.run TrieVector.version [] [.ofList (List.range 1057), .push 0 7]
    (second ∈ vectors ∧ second.Unbreached) ∧
      longer ∈ History.run (Slice.version vectors) [] [.ofVector 1, .append 0 [8, 9]] ∧
      longer.Unbreached := by
  intro first second whole longer vectors
  have all : vectors = [first, second] := rfl
  have slices : History.run (Slice.version vectors) [] [.ofVector 1, .append 0 [8, 9]] =
      [whole, longer] := rfl
  have secondMember : second ∈ vectors := by simp [all]
  have longerMember : longer ∈
      History.run (Slice.version vectors) [] [.ofVector 1, .append 0 [8, 9]] := by
    simp [slices]
  have both := histories_unbreached [.ofList (List.range 1057), .push 0 7]
    [.ofVector 1, .append 0 [8, 9]]
  exact ⟨⟨secondMember, both.1 second secondMember⟩, longerMember, both.2 longer longerMember⟩

end PersistentCollections
