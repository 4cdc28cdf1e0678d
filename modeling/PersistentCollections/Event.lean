/-! What the collections report while they change shape, and results that carry
such reports. An event is kept as data; its level, its text and the counter that
it advances are functions of it, so a count of events is a count of reports. -/

namespace PersistentCollections

inductive Event where
  /-- A vector of this length got a new root of this height. -/
  | rootGrew (length height : Nat)
  /-- A map of this many items was spread over more buckets. -/
  | mapGrew (items before after : Nat)
  /-- A map of this many items was gathered into fewer buckets. -/
  | mapShrank (items before after : Nat)
deriving DecidableEq

namespace Event

def level : Event → String
  | rootGrew .. => "TRACE"
  | mapGrew .. | mapShrank .. => "DEBUG"

def message : Event → String
  | rootGrew length height => s!"vector of length {length} grew to height {height}"
  | mapGrew items before after =>
    s!"growing map of {items} items from {before} to {after} buckets"
  | mapShrank items before after =>
    s!"shrinking map of {items} items from {before} to {after} buckets"

def line (e : Event) : String := e.level ++ " " ++ e.message

def counter : Event → String
  | rootGrew .. => "peds::vector::root_overflow"
  | mapGrew .. => "peds::map::grow"
  | mapShrank .. => "peds::map::shrink"

end Event

/-- The counters that these events advanced, each with its count. -/
def tally (events : List Event) : List (String × Nat) :=
  let names := events.map Event.counter
  names.eraseDups.map fun name => (name, names.count name)

/-- A result with the events reported on the way to it, oldest first. -/
structure Logged (α : Type) where
  value : α
  events : List Event := []

namespace Logged

def pure (a : α) : Logged α := ⟨a, []⟩

def map (f : α → β) (r : Logged α) : Logged β := ⟨f r.value, r.events⟩

def bind (r : Logged α) (f : α → Logged β) : Logged β :=
  let next := f r.value
  ⟨next.value, r.events ++ next.events⟩

def fold (step : β → α → Logged β) (start : β) (items : List α) : Logged β :=
  items.foldl (fun r a => r.bind (step · a)) (pure start)

@[simp] theorem pure_value (a : α) : (pure a).value = a := rfl
@[simp] theorem pure_events (a : α) : (pure a).events = [] := rfl
@[simp] theorem map_value (f : α → β) (r : Logged α) : (r.map f).value = f r.value := rfl
@[simp] theorem map_events (f : α → β) (r : Logged α) : (r.map f).events = r.events := rfl

@[simp] theorem bind_value (r : Logged α) (f : α → Logged β) :
    (r.bind f).value = (f r.value).value := rfl

@[simp] theorem bind_events (r : Logged α) (f : α → Logged β) :
    (r.bind f).events = r.events ++ (f r.value).events := rfl

theorem fold_value (step : β → α → Logged β) (start : β) (items : List α) :
    (fold step start items).value = items.foldl (fun b a => (step b a).value) start := by
  have general (r : Logged β) :
      (items.foldl (fun r a => r.bind (step · a)) r).value =
        items.foldl (fun b a => (step b a).value) r.value := by
    induction items generalizing r with
    | nil => rfl
    | cons a rest ih => rw [List.foldl_cons, ih]; rfl
  exact general (pure start)

@[simp] theorem fold_nil (step : β → α → Logged β) (start : β) : fold step start [] = pure start :=
  rfl

theorem bind_assoc (r : Logged α) (f : α → Logged β) (g : β → Logged γ) :
    (r.bind f).bind g = r.bind fun a => (f a).bind g := by
  simp [bind]

theorem fold_cons (step : β → α → Logged β) (start : β) (a : α) (rest : List α) :
    fold step start (a :: rest) = (step start a).bind fun b => fold step b rest := by
  have general (r : Logged β) :
      rest.foldl (fun r a => r.bind (step · a)) r = r.bind fun b => fold step b rest := by
    induction rest generalizing r with
    | nil => simp [bind]
    | cons a rest ih =>
      have first (b : β) :
          fold step b (a :: rest) = (step b a).bind fun b => fold step b rest := ih _
      simp only [List.foldl_cons, ih, bind_assoc, first]
  exact general _

end Logged

end PersistentCollections
