import PersistentCollections.BucketSet
import PersistentCollections.Hash.Feed
import PersistentCollections.Json.Value

/-! Keys of JSON objects. A key is always a string; integers, truth values and
characters are written inside of one, and other kinds of keys have no such form. A
reader of keys starts at the opening quotation mark. -/

namespace PersistentCollections

class JsonKey (α : Type) where
  /-- The key in quotation marks, if it has such a form. -/
  write? : α → Option String
  read : Json.Reader α

namespace Json

def stringKey : Reader String := do
  Reader.skip
  string

/-- Reads a key of a kind that has no form as a string. -/
def refuseKey (wanted : String) : Reader α := do
  throw (.wrongType (.string (← stringKey)) wanted)

def closeKey : Reader Unit := do
  if (← Reader.peek) == some '"' then Reader.skip else throw .malformed

def integerKey (read : Reader α) : Reader α := do
  Reader.skip
  if (← Reader.peek).any (fun c => c == '-' || isDigit c) then
    let n ← read
    closeKey
    return n
  else throw .malformed

/-- An integer of more than 64 bits, which is never taken for a float. -/
def wideInteger (f : IntFormat) : Reader (FixedInt f) := do
  if !f.signed && (← Reader.peek) == some '-' then throw .malformed
  match FixedInt.ofInt? (← integer) with
  | some i => return i
  | none => throw .malformed

end Json

open Json

def keyMessage : String := "key must be a string"

instance : JsonKey (FixedInt f) where
  write? n := some ("\"" ++ toString n.value ++ "\"")
  read := integerKey (if f.bits ≤ 64 then fixedInt else wideInteger f)

/-- A first letter that is neither of the two is passed over, and the rest is taken
for a string. -/
instance : JsonKey Bool where
  write? b := some (if b then "\"true\"" else "\"false\"")
  read := do
    Reader.skip
    match ← Reader.peek with
    | none => throw .truncated
    | some 't' =>
      Reader.literal ['t', 'r', 'u', 'e', '"']
      return true
    | some 'f' =>
      Reader.literal ['f', 'a', 'l', 's', 'e', '"']
      return false
    | some _ =>
      Reader.skip
      throw (.wrongType (.string (← string)) "a boolean")

instance : JsonKey Char where
  write? c := some (encode (String.singleton c))
  read := do
    let s ← stringKey
    match s.toList with
    | [c] => return c
    | _ => throw (.wrongValue (.string s) "a character")

instance : JsonKey String where
  write? s := some (encode s)
  read := stringKey

instance [JsonKey α] : JsonKey (Option α) where
  write?
    | none => none
    | some a => JsonKey.write? a
  read := some <$> JsonKey.read

instance : JsonKey Unit where
  write? _ := none
  read := refuseKey "unit"

instance : JsonKey Bytes where
  write? _ := none
  read := refuseKey "a sequence"

instance : JsonKey (α × β) where
  write? _ := none
  read := refuseKey "a tuple of size 2"

instance : JsonKey (TrieVector α) where
  write? _ := none
  read := refuseKey "a sequence"

instance : JsonKey (Slice α) where
  write? _ := none
  read := refuseKey "a sequence"

/-- The object of a map, in the order of its items; none if a key has no form. -/
def BucketMap.toJson? [JsonKey κ] [JsonValue ν] (m : BucketMap π κ ν) : Option String :=
  let member (item : κ × ν) : Option (String × String) :=
    (JsonKey.write? item.1).map fun key => (key, JsonValue.write item.2)
  (m.toList.mapM member).map writeObject

/-- The map of the members of an object. Of several with equal keys the last counts. -/
def BucketMap.fromJson [BEq κ] [LoadPolicy π] [JsonKey κ] [JsonValue ν] (hash : κ → UInt64)
    (policy : π) (text : String) : Logged (Except ReadError (BucketMap π κ ν)) :=
  Decoder.run (do Decoder.record (ofList hash policy (← object JsonKey.read JsonValue.read))) text

def BucketSet.toJson [JsonValue κ] (s : BucketSet π κ) : String := JsonValue.write s.toList

def BucketSet.fromJson [BEq κ] [LoadPolicy π] [JsonValue κ] (hash : κ → UInt64) (policy : π)
    (text : String) : Logged (Except ReadError (BucketSet π κ)) :=
  Decoder.run (do Decoder.record (ofList hash policy (← array JsonValue.read))) text

end PersistentCollections
