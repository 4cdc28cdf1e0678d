/-! One bucket of a map: items in the order in which their keys first came. -/

namespace PersistentCollections

abbrev Bucket (κ ν : Type) := List (κ × ν)

namespace Bucket

variable {κ ν : Type} [BEq κ]

def find? (b : Bucket κ ν) (k : κ) : Option (κ × ν) := List.find? (fun item => item.1 == k) b

def contains (b : Bucket κ ν) (k : κ) : Bool := b.any fun item => item.1 == k

/-- Puts an item in the place of the one with an equal key, or else at the end. -/
def put (item : κ × ν) : Bucket κ ν → Bucket κ ν
  | [] => [item]
  | old :: rest => if old.1 == item.1 then item :: rest else old :: put item rest

def erase (b : Bucket κ ν) (k : κ) : Bucket κ ν := b.filter fun item => !(item.1 == k)

def distinct : Bucket κ ν → Bool
  | [] => true
  | item :: rest => !contains rest item.1 && distinct rest

/-- A bucket as it is stored: an empty one is left out. -/
def stored : Bucket κ ν → Option (Bucket κ ν)
  | [] => none
  | b => some b

def items : Option (Bucket κ ν) → Bucket κ ν
  | none => []
  | some b => b

omit [BEq κ] in
@[simp] theorem items_stored (b : Bucket κ ν) : items (stored b) = b := by
  cases b <;> rfl

end Bucket

end PersistentCollections
