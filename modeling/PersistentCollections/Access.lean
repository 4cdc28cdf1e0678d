/-! Positions and ranges: which of them a sequence of a given length accepts.
The two refusals carry the numbers that were refused; nothing has been built
when one of them is returned. -/

namespace PersistentCollections

/-- A position or a range that a sequence does not have. -/
inductive AccessError where
  | indexOutOfBounds (index length : Nat)
  | invalidRange (start stop length : Nat)
deriving DecidableEq

namespace AccessError

def message : AccessError → String
  | indexOutOfBounds index length => s!"index {index} out of bounds for length {length}"
  | invalidRange start stop length => s!"invalid range {start}..{stop} for length {length}"

end AccessError

def checkIndex (index length : Nat) : Except AccessError Unit :=
  if index < length then .ok () else .error (.indexOutOfBounds index length)

def checkRange (start stop length : Nat) : Except AccessError Unit :=
  if start ≤ stop ∧ stop ≤ length then .ok () else .error (.invalidRange start stop length)

theorem checkIndex_ok_iff {index length : Nat} :
    checkIndex index length = .ok () ↔ index < length := by
  unfold checkIndex
  split <;> simp_all

theorem checkIndex_of_le {index length : Nat} (h : length ≤ index) :
    checkIndex index length = .error (.indexOutOfBounds index length) :=
  if_neg (Nat.not_lt.2 h)

theorem checkRange_ok_iff {start stop length : Nat} :
    checkRange start stop length = .ok () ↔ start ≤ stop ∧ stop ≤ length := by
  unfold checkRange
  split <;> simp_all

theorem checkRange_of_not {start stop length : Nat} (h : ¬(start ≤ stop ∧ stop ≤ length)) :
    checkRange start stop length = .error (.invalidRange start stop length) :=
  if_neg h

end PersistentCollections
