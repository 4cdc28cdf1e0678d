import PersistentCollections.Json.Decoder
import PersistentCollections.Json.Number
import PersistentCollections.Json.Text
import PersistentCollections.Slice

/-! Values as JSON: integers, floating-point numbers, strings and sequences of them.
The first character of a value decides whether it is of the wanted kind; what is not
is read to its end, or up to its own first fault, before it is refused. -/

namespace PersistentCollections

class JsonValue (α : Type) where
  write : α → String
  read : Json.Decoder α

namespace Json

def refuse (wanted : String) : Reader α := do
  match ← Reader.peek with
  | some 'n' =>
    Reader.literal ['n', 'u', 'l', 'l']
    throw (.wrongType .null wanted)
  | some 't' =>
    Reader.literal ['t', 'r', 'u', 'e']
    throw (.wrongType (.boolean true) wanted)
  | some 'f' =>
    Reader.literal ['f', 'a', 'l', 's', 'e']
    throw (.wrongType (.boolean false) wanted)
  | some '"' =>
    Reader.skip
    throw (.wrongType (.string (← string)) wanted)
  | some '[' => throw (.wrongType .sequence wanted)
  | some '\x7b' => throw (.wrongType .map wanted)
  | some c =>
    if c == '-' || isDigit c then throw (.wrongType (← anyNumber).found wanted)
    else throw .malformed
  | none => throw .malformed

def start : Reader Char := do
  match ← Reader.peekToken with
  | some c => return c
  | none => throw .truncated

/-- A number, where a value of the type named `wanted` should start. -/
def numberAs (wanted : String) : Reader Number := do
  let c ← start
  if c == '-' || isDigit c then anyNumber else refuse wanted

/-- The elements of a sequence from behind its bracket on; `room` bounds their number
and `seen` holds those before, last first. -/
def elements (item : Decoder α) : (room : Nat) → (seen : List α) → Decoder (List α)
  | 0, _ => throw .malformed
  | room + 1, seen => do
    match ← Reader.peekToken, seen with
    | none, _ => throw .truncated
    | some ']', _ =>
      Reader.skip
      return seen.reverse
    | some _, [] => elements item room [← item]
    | some ',', _ :: _ =>
      Reader.skip
      match ← Reader.peekToken with
      | none => throw .truncated
      | some ']' => throw .malformed
      | some _ => elements item room ((← item) :: seen)
    | some _, _ :: _ => throw .malformed

def array (item : Decoder α) : Decoder (List α) := do
  if (← start) == '[' then
    Reader.skip
    elements item ((← Decoder.left) + 1) []
  else refuse "a sequence"

def member (key : Reader κ) (value : Decoder ν) : Decoder (κ × ν) := do
  let k ← key
  match ← Reader.peekToken with
  | none => throw .truncated
  | some ':' =>
    Reader.skip
    return (k, ← value)
  | some _ => throw .malformed

def members (key : Reader κ) (value : Decoder ν) :
    (room : Nat) → (seen : List (κ × ν)) → Decoder (List (κ × ν))
  | 0, _ => throw .malformed
  | room + 1, seen => do
    match ← Reader.peekToken, seen with
    | none, _ => throw .truncated
    | some '\x7d', _ =>
      Reader.skip
      return seen.reverse
    | some '"', [] => members key value room [← member key value]
    | some ',', _ :: _ =>
      Reader.skip
      match ← Reader.peekToken with
      | none => throw .truncated
      | some '"' => members key value room ((← member key value) :: seen)
      | some _ => throw .malformed
    | some _, _ => throw .malformed

/-- An object. Its members keep their order, also where keys repeat. -/
def object (key : Reader κ) (value : Decoder ν) : Decoder (List (κ × ν)) := do
  if (← start) == '\x7b' then
    Reader.skip
    members key value ((← Decoder.left) + 1) []
  else refuse "a map"

def fixedInt : Reader (FixedInt f) := do
  match ← numberAs f.name with
  | .whole n =>
    match FixedInt.ofInt? n with
    | some i => return i
    | none => throw (.wrongValue (.integer n) f.name)
  | .float x => throw (.wrongType (.number x) f.name)

def writeArray (items : List String) : String := "[" ++ ",".intercalate items ++ "]"

def writeObject (members : List (String × String)) : String :=
  "\x7b" ++ ",".intercalate (members.map fun (k, v) => k ++ ":" ++ v) ++ "\x7d"

end Json

open Json

instance : JsonValue (FixedInt f) where
  write n := toString n.value
  read := Decoder.ofReader fixedInt

/-- NaN and the infinities have no form in JSON; null stands for them. -/
instance : JsonValue (Binary .double) where
  write x := if x.isFinite then Json.number.text x else "null"
  read := do
    match ← numberAs "f64" with
    | .whole n => finite (Binary.ofInt? n)
    | .float x => return x

instance : JsonValue String where
  write := encode
  read := do
    if (← start) == '"' then
      Reader.skip
      string
    else refuse "a string"

instance [JsonValue α] : JsonValue (List α) where
  write items := writeArray (items.map JsonValue.write)
  read := array JsonValue.read

instance [JsonValue α] : JsonValue (TrieVector α) where
  write v := JsonValue.write v.toList
  read := do Decoder.record (TrieVector.ofList (← JsonValue.read))

instance [JsonValue α] : JsonValue (Slice α) where
  write s := JsonValue.write s.toList
  read := do Decoder.record (Slice.ofList (← JsonValue.read))

def fromJson [JsonValue α] (text : String) : Logged (Except ReadError α) :=
  Decoder.run JsonValue.read text

end PersistentCollections
