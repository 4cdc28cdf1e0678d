/-! The shape in which a value is shown to a reader: words, entries and groups of
them. A form is written on one line, or opened up with each member of a group on a
line of its own, four spaces further in and with a comma after it. -/

namespace PersistentCollections

inductive Form where
  | word (text : String)
  | entry (key value : Form)
  | group (opening closing : String) (members : List Form)

namespace Form

mutual

def compact : Form → String
  | word text => text
  | entry key value => key.compact ++ ": " ++ value.compact
  | group opening closing members => opening ++ ", ".intercalate (compactAll members) ++ closing

def compactAll : List Form → List String
  | [] => []
  | form :: rest => form.compact :: compactAll rest

end

def margin (depth : Nat) : String := String.ofList (List.replicate (4 * depth) ' ')

mutual

/-- The form opened up, `depth` groups in. -/
def opened (depth : Nat) : Form → String
  | word text => text
  | entry key value => key.opened depth ++ ": " ++ value.opened depth
  | group opening closing [] => opening ++ closing
  | group opening closing (member :: rest) =>
    opening ++ "\n" ++ String.join (openedAll depth (member :: rest)) ++ margin depth ++ closing

def openedAll (depth : Nat) : List Form → List String
  | [] => []
  | form :: rest =>
    (margin (depth + 1) ++ form.opened (depth + 1) ++ ",\n") :: openedAll depth rest

end

def list (members : List Form) : Form := group "[" "]" members

def braces (members : List Form) : Form := group "\x7b" "\x7d" members

def tuple (name : String) (members : List Form) : Form := group (name ++ "(") ")" members

end Form

end PersistentCollections
