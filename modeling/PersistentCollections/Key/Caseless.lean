/-! Texts as keys that ignore the case of the letters A to Z. The spelling is kept,
but two spellings of one word are the same key. -/

namespace PersistentCollections

structure Caseless where
  spelling : String

namespace Caseless

def folded (k : Caseless) : String := k.spelling.map Char.toLower

instance : BEq Caseless := ⟨fun a b => a.folded == b.folded⟩

theorem beq_iff {a b : Caseless} : (a == b) = true ↔ a.folded = b.folded := by
  change (a.folded == b.folded) = true ↔ _
  exact beq_iff_eq

theorem beq_iff_letters {a b : Caseless} : (a == b) = true ↔
    a.spelling.toList.map Char.toLower = b.spelling.toList.map Char.toLower := by
  rw [beq_iff, folded, folded, ← String.toList_inj, String.toList_map, String.toList_map]

instance : EquivBEq Caseless where
  rfl := beq_iff.2 rfl
  symm h := beq_iff.2 (beq_iff.1 h).symm
  trans h k := beq_iff.2 ((beq_iff.1 h).trans (beq_iff.1 k))

end Caseless

end PersistentCollections
