/-! The CRC-32 checksum with the reflected polynomial `0xEDB88320`. The register is
carried from one batch of bytes to the next, so a checksum can be read off after
every batch; reading it off does not change the register. -/

namespace PersistentCollections

structure Crc32 where
  register : UInt32 := 0xFFFFFFFF

namespace Crc32

def shift (r : UInt32) : UInt32 :=
  if r &&& 1 = 1 then (r >>> 1) ^^^ 0xEDB88320 else r >>> 1

def absorb (r : UInt32) (byte : UInt8) : UInt32 :=
  shift (shift (shift (shift (shift (shift (shift (shift (r ^^^ byte.toUInt32))))))))

def update (c : Crc32) (bytes : List UInt8) : Crc32 := ⟨bytes.foldl absorb c.register⟩

def sum (c : Crc32) : UInt64 := (c.register ^^^ 0xFFFFFFFF).toUInt64

@[simp] theorem update_nil (c : Crc32) : c.update [] = c := rfl

theorem update_append (c : Crc32) (xs ys : List UInt8) :
    c.update (xs ++ ys) = (c.update xs).update ys := by
  simp [update, List.foldl_append]

end Crc32

def crc32 (bytes : List UInt8) : UInt64 := (Crc32.update {} bytes).sum

@[simp] theorem crc32_nil : crc32 [] = 0 := rfl

end PersistentCollections
