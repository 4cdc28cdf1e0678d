import PersistentCollections.Json.Reader

/-! Strings in JSON. Written, only the quotation mark, the backslash and the controls
below the space are escaped. Read, an escape may also be a code of 16 bits in four
hexadecimal digits, or two of them that form a surrogate pair. -/

namespace PersistentCollections.Json

def encodeChar (c : Char) : List Char :=
  match c with
  | '"' => ['\\', '"']
  | '\\' => ['\\', '\\']
  | '\x08' => ['\\', 'b']
  | '\x0c' => ['\\', 'f']
  | '\n' => ['\\', 'n']
  | '\r' => ['\\', 'r']
  | '\t' => ['\\', 't']
  | _ =>
    if c.toNat < 0x20 then
      ['\\', 'u', '0', '0', Nat.digitChar (c.toNat / 16), Nat.digitChar (c.toNat % 16)]
    else [c]

def encode (s : String) : String :=
  String.ofList ('"' :: s.toList.flatMap encodeChar ++ ['"'])

def hexDigit? (c : Char) : Option Nat :=
  if '0' ≤ c ∧ c ≤ '9' then some (c.toNat - '0'.toNat)
  else if 'a' ≤ c ∧ c ≤ 'f' then some (c.toNat - 'a'.toNat + 10)
  else if 'A' ≤ c ∧ c ≤ 'F' then some (c.toNat - 'A'.toNat + 10)
  else none

def hexValue? (digits : List Char) : Option Nat :=
  digits.foldlM (fun n c => (hexDigit? c).map (16 * n + ·)) 0

/-- Four hexadecimal digits. The text ends too early if fewer than four bytes of it
are left. -/
def hexCode : Reader Nat := fun text =>
  let four := text.take 4
  if four.foldl (fun n c => n + c.utf8Size) 0 < 4 then .error .truncated
  else match hexValue? four with
    | some n => .ok (n, text.drop 4)
    | none => .error .malformed

/-- Whether a 16-bit code is the first, or the second, of a surrogate pair. -/
def isLeading (n : Nat) : Bool := 0xD800 ≤ n && n ≤ 0xDBFF

@[inherit_doc isLeading]
def isTrailing (n : Nat) : Bool := 0xDC00 ≤ n && n ≤ 0xDFFF

def codeEscape : Reader Char := do
  let n ← hexCode
  if isTrailing n then throw .malformed
  else if isLeading n then
    Reader.literal ['\\', 'u']
    let low ← hexCode
    if isTrailing low then
      return Char.ofNat ((n - 0xD800) * 0x400 + (low - 0xDC00) + 0x10000)
    else throw .malformed
  else return Char.ofNat n

def escape : Reader Char := fun
  | [] => .error .truncated
  | '"' :: text => .ok ('"', text)
  | '\\' :: text => .ok ('\\', text)
  | '/' :: text => .ok ('/', text)
  | 'b' :: text => .ok ('\x08', text)
  | 'f' :: text => .ok ('\x0c', text)
  | 'n' :: text => .ok ('\n', text)
  | 'r' :: text => .ok ('\r', text)
  | 't' :: text => .ok ('\t', text)
  | 'u' :: text => codeEscape text
  | _ :: _ => .error .malformed

theorem forward_hexCode : Reader.Forward hexCode := by
  intro text n rest h
  simp only [hexCode] at h
  split at h
  · cases h
  · split at h
    · cases h
      simp
    · cases h

theorem forward_codeEscape : Reader.Forward codeEscape := by
  refine forward_hexCode.bind fun n => ?_
  split
  · exact Reader.forward_throw _
  · split
    · refine (Reader.forward_literal _).bind fun _ => forward_hexCode.bind fun low => ?_
      split
      · exact Reader.forward_pure _
      · exact Reader.forward_throw _
    · exact Reader.forward_pure _

theorem escape_length {text rest : List Char} {c : Char} (h : escape text = .ok (c, rest)) :
    rest.length < text.length := by
  unfold escape at h
  split at h
  case h_10 => exact Nat.lt_succ_of_le (forward_codeEscape _ _ _ h)
  case h_1 | h_11 => cases h
  all_goals
    cases h
    exact Nat.lt_succ_self _

/-- The rest of a string, from behind its opening quotation mark or from within;
`seen` is what came before, last first. -/
def stringFrom (seen : List Char) : Reader String := fun
  | [] => .error .truncated
  | '"' :: text => .ok (String.ofList seen.reverse, text)
  | '\\' :: text =>
    match h : escape text with
    | .error e => .error e
    | .ok (c, rest) =>
      have := escape_length h
      stringFrom (c :: seen) rest
  | c :: text => if c.toNat < 0x20 then .error .malformed else stringFrom (c :: seen) text
  termination_by text => text.length

def string : Reader String := stringFrom []

end PersistentCollections.Json
