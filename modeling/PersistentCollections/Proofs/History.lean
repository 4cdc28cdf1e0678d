import Mathlib.Data.List.Forall2

/-! Histories of values that nothing changes. Each step makes a version from those made
before, which it names by their numbers; a step that fails makes none. What every step
keeps holds of all versions, and two histories over related versions stay related. -/

namespace PersistentCollections.History

variable {σ α β γ δ : Type} {make : List α → σ → Option α} {model : List β → σ → Option β}
  {R : α → β → Prop} {S : γ → δ → Prop}

def next (make : List α → σ → Option α) (versions : List α) (step : σ) : List α :=
  versions ++ (make versions step).toList

def run (make : List α → σ → Option α) (versions : List α) (steps : List σ) : List α :=
  steps.foldl (next make) versions

theorem run_forall {P : α → Prop}
    (made : ∀ {versions : List α} {step v}, (∀ w ∈ versions, P w) →
      make versions step = some v → P v)
    {versions : List α} (start : ∀ w ∈ versions, P w) (steps : List σ) :
    ∀ v ∈ run make versions steps, P v := by
  induction steps generalizing versions with
  | nil => exact start
  | cons step rest ih =>
    have kept : ∀ w ∈ next make versions step, P w := by
      intro w hw
      rcases List.mem_append.1 hw with old | new
      · exact start w old
      · exact made start (Option.mem_toList.1 new)
    exact ih kept

theorem rel_getElem? {versions : List α} {models : List β} (h : List.Forall₂ R versions models)
    (i : Nat) : Option.Rel R versions[i]? models[i]? := by
  induction h generalizing i with
  | nil => exact .none
  | cons first _ ih =>
    cases i with
    | zero => exact .some first
    | succ i => exact ih i

theorem rel_bind {a : Option α} {b : Option β} {f : α → Option γ} {g : β → Option δ}
    (h : Option.Rel R a b) (step : ∀ v w, R v w → Option.Rel S (f v) (g w)) :
    Option.Rel S (a.bind f) (b.bind g) := by
  cases h with
  | none => exact .none
  | some related => exact step _ _ related

theorem rel_toList {a : Option α} {b : Option β} (h : Option.Rel R a b) :
    List.Forall₂ R a.toList b.toList := by
  cases h with
  | none => exact .nil
  | some related => exact .cons related .nil

theorem run_simulates
    (step : ∀ versions models s, List.Forall₂ R versions models →
      Option.Rel R (make versions s) (model models s))
    {versions : List α} {models : List β} (start : List.Forall₂ R versions models)
    (steps : List σ) : List.Forall₂ R (run make versions steps) (run model models steps) := by
  induction steps generalizing versions models with
  | nil => exact start
  | cons s rest ih =>
    have made := rel_toList (step versions models s start)
    exact ih (List.rel_append start made)

end PersistentCollections.History
