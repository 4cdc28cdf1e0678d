import PersistentCollections.Event
import PersistentCollections.Json.Reader

/-! Reading that builds collections on the way. What the building of one reports is
kept also if the text turns out to be wrong further on. -/

namespace PersistentCollections.Json

/-- What is left of a text, and the events so far, oldest first. -/
structure Progress where
  text : List Char
  events : List Event := []

abbrev Decoder := ExceptT ReadError (StateM Progress)

namespace Decoder

def ofReader (r : Reader α) : Decoder α := fun s =>
  match r s.text with
  | .ok (a, text) => (.ok a, { s with text })
  | .error e => (.error e, s)

instance : MonadLift Reader Decoder := ⟨ofReader⟩

def record (r : Logged α) : Decoder α := fun s =>
  (.ok r.value, { s with events := s.events ++ r.events })

def left : Decoder Nat := fun s => (.ok s.text.length, s)

@[simp] theorem ofReader_events (r : Reader α) (s : Progress) :
    (ofReader r s).2.events = s.events := by
  unfold ofReader
  split <;> rfl

/-- Decodes a whole text: behind the value there may only be space. -/
def run (d : Decoder α) (text : String) : Logged (Except ReadError α) :=
  match d ⟨text.toList, []⟩ with
  | (.ok a, s) => ⟨if s.text.all isSpace then .ok a else .error .malformed, s.events⟩
  | (.error e, s) => ⟨.error e, s.events⟩

end Decoder

end PersistentCollections.Json
