import PersistentCollections.Decimal.Nearest
import PersistentCollections.Json.Reader
import PersistentCollections.Number.FixedInt

/-! Numbers in JSON. An integer that fits into 64 bits is read as it is; any other
number becomes the floating-point number nearest to it, and one too large for that is
refused.

No number half-way between two floating-point numbers has more than 767 digits, so a
number of more than 768 is known to lie above or below the half-way point by its first
768 digits and by what is left. What is left counts as more than nothing, also where
the digits before the point end in zeros. -/

namespace PersistentCollections.Json

inductive Number where
  | whole (n : Int)
  | float (x : Binary .double)

namespace Number

def found : Number → Found
  | whole n => .integer n
  | float x => .number x

end Number

def isDigit (c : Char) : Bool := '0' ≤ c && c ≤ '9'

def digitValue (c : Char) : Nat := c.toNat - '0'.toNat

def natural (digits : List Char) : Nat := digits.foldl (fun n c => 10 * n + digitValue c) 0

def digitLimit : Nat := 768

/-- The decimal of a run of digits, scaled by a power of ten. A one stands for all
digits beyond the limit. -/
def decimalOf (ds : List Char) (exponent : Int) : Decimal :=
  if ds.length ≤ digitLimit then ⟨natural ds, exponent⟩
  else ⟨10 * natural (ds.take digitLimit) + 1, exponent + (ds.length - digitLimit - 1 : Nat)⟩

/-- The decimal of the digits before and behind a point, scaled by a power of ten. The
zeros that the number starts with, or that end its fraction, are no digits of it. -/
def scaledDecimal (whole places : List Char) (exponent : Int) : Decimal :=
  let fraction := (places.reverse.dropWhile (· == '0')).reverse
  decimalOf ((whole ++ fraction).dropWhile (· == '0')) (exponent - fraction.length)

def finite (x : Option (Binary .double)) : Reader (Binary .double) :=
  match x with
  | some x => return x
  | none => throw .malformed

def digits : Reader (List Char) := do
  match ← Reader.takeWhile isDigit with
  | [] => throw (if (← Reader.peek).isNone then .truncated else .malformed)
  | ds => return ds

def places : Reader (List Char) := do
  if (← Reader.peek) == some '.' then
    Reader.skip
    digits
  else return []

def isExponentMark (c : Char) : Bool := c == 'e' || c == 'E'

def exponent : Reader Int := do
  if (← Reader.peek).any isExponentMark then
    Reader.skip
    let sign ← Reader.peek
    if sign == some '+' || sign == some '-' then Reader.skip
    let n := natural (← digits)
    return if sign == some '-' then -n else n
  else return 0

/-- Whether an integer of this sign and size fits into 64 bits. Minus zero does not,
as it has no integer of its own. -/
def fits (negative : Bool) (n : Nat) : Bool :=
  if negative then 0 < n && n ≤ 0x8000000000000000 else n < 0x10000000000000000

def unsigned (negative : Bool) : Reader Number := do
  let ds ← digits
  if ds.head? == some '0' && 1 < ds.length then throw .malformed
  if (← Reader.peek).any (fun c => c == '.' || isExponentMark c) then
    let more ← places
    let e ← exponent
    return .float (← finite (Binary.ofDecimal? negative (scaledDecimal ds more e)))
  else
    let n := natural (ds.take 20)
    if ds.length ≤ 20 && fits negative n then return .whole (if negative then -n else n)
    else return .float (← finite (Binary.ofDecimal? negative (scaledDecimal ds [] 0)))

def anyNumber : Reader Number := do
  if (← Reader.peek) == some '-' then
    Reader.skip
    unsigned true
  else unsigned false

def integer : Reader Int := do
  let negative := (← Reader.peek) == some '-'
  if negative then Reader.skip
  let ds ← Reader.takeWhile isDigit
  if ds.isEmpty || (ds.head? == some '0' && 1 < ds.length) then throw .malformed
  return if negative then -(natural ds : Int) else natural ds

end PersistentCollections.Json
