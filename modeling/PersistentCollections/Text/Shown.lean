import PersistentCollections.BucketSet
import PersistentCollections.Decimal.Layout
import PersistentCollections.Hash.Feed
import PersistentCollections.Text.Form
import PersistentCollections.Text.Quoted

/-! How each kind of value is shown to a reader. -/

namespace PersistentCollections

class Shown (α : Type) where
  form : α → Form

export Shown (form)

/-- Shown numbers always have a fraction or an exponent; they have an exponent from
`10 ^ 16` on and below `10 ^ -4`. -/
def shownNumber : Layout := ⟨some (-4, 15), true, "", .up⟩

instance : Shown (FixedInt f) where
  form n := .word (toString n.value)

instance : Shown Bool where
  form b := .word (if b then "true" else "false")

instance : Shown Char where
  form c := .word (quotedChar c)

instance : Shown String where
  form s := .word (quotedString s)

instance : Shown Unit where
  form _ := .word "()"

instance : Shown (Binary p) where
  form x := .word (shownNumber.text x)

instance : Shown (FloatKey p) where
  form k := .tuple "FloatKey" [form k.number]

instance : Shown Caseless where
  form k := .tuple "Ci" [form k.spelling]

instance : Shown Bytes where
  form b := .list (b.bytes.map fun byte => .word (toString byte.toNat))

instance [Shown α] [Shown β] : Shown (α × β) where
  form p := .tuple "" [form p.1, form p.2]

instance [Shown α] : Shown (Option α) where
  form
    | none => .word "None"
    | some a => .tuple "Some" [form a]

instance [Shown α] : Shown (TrieVector α) where
  form v := .list (v.toList.map form)

instance [Shown α] : Shown (Slice α) where
  form s := .list (s.toList.map form)

instance [Shown κ] [Shown ν] : Shown (BucketMap π κ ν) where
  form m := .braces (m.toList.map fun (k, v) => .entry (form k) (form v))

instance [Shown κ] : Shown (BucketSet π κ) where
  form s := .braces (s.toList.map form)

def shown [Shown α] (a : α) : String := (form a).compact

def shownOpen [Shown α] (a : α) : String := (form a).opened 0

end PersistentCollections
