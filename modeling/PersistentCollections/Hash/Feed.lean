import PersistentCollections.Hash.Crc32
import PersistentCollections.Key.Caseless
import PersistentCollections.Key.Float
import PersistentCollections.Number.FixedInt
import PersistentCollections.Slice

/-! The bytes that a value gives to a hasher. Equal keys give the same bytes.
Numbers give their bytes at their width, least significant first; a text is closed
by a byte that no text contains; a sequence is preceded by its length. -/

namespace PersistentCollections

class HashFeed (α : Type) where
  feed : α → List UInt8

export HashFeed (feed)

/-- A length or a tag, as a 64-bit number. -/
def feedLength (n : Nat) : List UInt8 := littleEndian n 8

/-- What a sequence gives: its length, then its elements. -/
def feedAll [HashFeed α] (items : List α) : List UInt8 :=
  feedLength items.length ++ items.flatMap feed

structure Bytes where
  bytes : List UInt8
deriving DecidableEq

instance : HashFeed (FixedInt f) where
  feed n := littleEndian (n.value % f.span).toNat (f.bits / 8)

instance : HashFeed Bool where
  feed b := [if b then 1 else 0]

instance : HashFeed Char where
  feed c := littleEndian c.toNat 4

instance : HashFeed String where
  feed s := s.toUTF8.toList ++ [0xFF]

instance : HashFeed Caseless where
  feed k := feed k.folded

instance : HashFeed Unit where
  feed _ := []

instance : HashFeed UInt8 where
  feed b := [b]

instance : HashFeed Bytes where
  feed b := feedAll b.bytes

instance : HashFeed (Binary p) where
  feed x := littleEndian x.bits.toNat (p.width / 8)

instance : HashFeed (FloatKey p) where
  feed k := feed k.number

instance [HashFeed α] [HashFeed β] : HashFeed (α × β) where
  feed p := feed p.1 ++ feed p.2

instance [HashFeed α] : HashFeed (Option α) where
  feed
    | none => feedLength 0
    | some a => feedLength 1 ++ feed a

instance [HashFeed α] : HashFeed (TrieVector α) where
  feed v := feedAll v.toList

instance [HashFeed α] : HashFeed (Slice α) where
  feed s := feedAll s.toList

def crc32Of [HashFeed α] (a : α) : UInt64 := crc32 (feed a)

end PersistentCollections
