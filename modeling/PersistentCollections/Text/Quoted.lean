import PersistentCollections.Text.Traceless

/-! Text in quotation marks, as it is shown to a reader: on one line, with the mark
itself and the backslash escaped and every character that leaves no mark of its own
written by its code. -/

namespace PersistentCollections

/-- A quoted character; `mark` is the quotation mark around it. -/
def escaped (mark c : Char) : List Char :=
  match c with
  | '\x00' => ['\\', '0']
  | '\t' => ['\\', 't']
  | '\n' => ['\\', 'n']
  | '\r' => ['\\', 'r']
  | '\\' => ['\\', '\\']
  | _ =>
    if c = mark then ['\\', c]
    else if isTraceless c then
      ['\\', 'u', '\x7b'] ++ Nat.toDigits 16 c.toNat ++ ['\x7d']
    else [c]

def quoted (mark : Char) (text : List Char) : String :=
  String.ofList (mark :: text.flatMap (escaped mark) ++ [mark])

def quotedString (s : String) : String := quoted '"' s.toList

def quotedChar (c : Char) : String := quoted '\x27' [c]

end PersistentCollections
