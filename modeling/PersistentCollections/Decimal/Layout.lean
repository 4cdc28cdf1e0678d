import PersistentCollections.Decimal.Shortest

/-! How a number is written out once its digits are chosen. A `Layout` is the set
of decisions of one output format. -/

namespace PersistentCollections

structure Layout where
  /-- The powers of ten of the leading digit, first to last, for which the number is
  written without an exponent; without bounds it always is. -/
  positional : Option (Int × Int)
  /-- Whether a whole number written without an exponent keeps a `.0`. -/
  fraction : Bool
  /-- What stands before a positive exponent. -/
  plus : String
  tie : Tie

namespace Layout

private def zeros (n : Nat) : String := String.ofList (List.replicate n '0')

def written (l : Layout) (d : Decimal) : String :=
  let digits := Nat.toDigits 10 d.digits
  let whole := if l.fraction then ".0" else ""
  if 0 ≤ d.exponent then
    String.ofList digits ++ zeros d.exponent.natAbs ++ whole
  else
    let places := d.exponent.natAbs
    if places < digits.length then
      let ahead := digits.length - places
      String.ofList (digits.take ahead) ++ "." ++ String.ofList (digits.drop ahead)
    else
      "0." ++ zeros (places - digits.length) ++ String.ofList digits

def scientific (l : Layout) (d : Decimal) : String :=
  let digits := Nat.toDigits 10 d.digits
  let leading := d.exponent + (digits.length - 1 : Nat)
  let mark := if leading < 0 then "e" else "e" ++ l.plus
  let power := mark ++ toString leading
  match digits with
  | [digit] => String.singleton digit ++ power
  | digit :: rest => String.singleton digit ++ "." ++ String.ofList rest ++ power
  | [] => power

def decimal (l : Layout) (d : Decimal) : String :=
  let leading := d.exponent + ((Nat.toDigits 10 d.digits).length - 1 : Nat)
  match l.positional with
  | none => l.written d
  | some (first, last) =>
    if first ≤ leading ∧ leading ≤ last then l.written d else l.scientific d

/-- The text of a number. A NaN has no sign. -/
def text (l : Layout) (x : Binary p) : String :=
  if x.isNaN then "NaN"
  else
    let sign := if x.negative then "-" else ""
    if x.isFinite then sign ++ l.decimal (x.shortest l.tie) else sign ++ "inf"

end Layout

end PersistentCollections
