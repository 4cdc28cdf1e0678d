import PersistentCollections.Decimal.Layout
import PersistentCollections.Text.Quoted

/-! Reading JSON text from left to right, up to the first thing that is wrong. What
is wrong is either that a well-formed piece is not what was wanted, or that the text
ends too early, or that it is no JSON at this place. -/

namespace PersistentCollections.Json

/-- Numbers in JSON always have a fraction or an exponent if they are not integers;
they have an exponent from `10 ^ 16` on and below `10 ^ -5`. -/
def number : Layout := ⟨some (-5, 15), true, "+", .even⟩

/-- A piece of JSON that was not wanted where it stood. -/
inductive Found where
  | integer (n : Int)
  | number (x : Binary .double)
  | boolean (b : Bool)
  | string (s : String)
  | null
  | sequence
  | map

namespace Found

def message : Found → String
  | integer n => "integer `" ++ toString n ++ "`"
  | number x => "floating point `" ++ Json.number.text x ++ "`"
  | boolean b => "boolean `" ++ (if b then "true" else "false") ++ "`"
  | string s => "string " ++ quotedString s
  | null => "null"
  | sequence => "sequence"
  | map => "map"

end Found

inductive ReadError where
  | wrongType (found : Found) (wanted : String)
  /-- The right type, but not a value of it. -/
  | wrongValue (found : Found) (wanted : String)
  | truncated
  | malformed

namespace ReadError

def message? : ReadError → Option String
  | wrongType found wanted => some ("invalid type: " ++ found.message ++ ", expected " ++ wanted)
  | wrongValue found wanted => some ("invalid value: " ++ found.message ++ ", expected " ++ wanted)
  | truncated => none
  | malformed => none

end ReadError

/-- A reader takes what it reads off the front of the text. -/
abbrev Reader := StateT (List Char) (Except ReadError)

def isSpace (c : Char) : Bool := c == ' ' || c == '\n' || c == '\t' || c == '\r'

namespace Reader

def peek : Reader (Option Char) := fun text => .ok (text.head?, text)

def peekToken : Reader (Option Char) := fun text =>
  let text := text.dropWhile isSpace
  .ok (text.head?, text)

def skip : Reader Unit := fun text => .ok ((), text.drop 1)

def literal : List Char → Reader Unit
  | [] => pure ()
  | c :: rest => fun
    | [] => .error .truncated
    | d :: text => if d = c then literal rest text else .error .malformed

def takeWhile (p : Char → Bool) : Reader (List Char) := fun text => .ok (text.span p)

/-- A reader that never puts anything back. -/
def Forward (r : Reader α) : Prop :=
  ∀ text a rest, r text = .ok (a, rest) → rest.length ≤ text.length

theorem forward_pure (a : α) : Forward (pure a : Reader α) := by
  intro text b rest h
  cases h
  exact Nat.le_refl _

theorem forward_throw (e : ReadError) : Forward (throw e : Reader α) := by
  intro text b rest h
  cases h

theorem Forward.bind {r : Reader α} {f : α → Reader β} (hr : Forward r)
    (hf : ∀ a, Forward (f a)) : Forward (r >>= f) := by
  intro text b rest h
  change (r text >>= fun x => f x.1 x.2) = _ at h
  cases first : r text with
  | error e =>
    rw [first] at h
    cases h
  | ok x =>
    rw [first] at h
    exact Nat.le_trans (hf x.1 _ _ _ h) (hr _ _ _ first)

theorem forward_literal (cs : List Char) : Forward (literal cs) := by
  induction cs with
  | nil => exact forward_pure ()
  | cons c cs ih =>
    intro text u rest h
    cases text with
    | nil => cases h
    | cons d text =>
      change (if d = c then literal cs text else .error .malformed) = _ at h
      split at h
      · exact Nat.le_succ_of_le (ih _ _ _ h)
      · cases h

end Reader

end PersistentCollections.Json
