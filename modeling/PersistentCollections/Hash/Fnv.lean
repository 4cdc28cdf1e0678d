/-! The 64-bit hash FNV-1a: per byte an exclusive or, then a multiplication. -/

namespace PersistentCollections

namespace Fnv

def basis : UInt64 := 0xcbf29ce484222325

def prime : UInt64 := 0x100000001b3

def absorb (h : UInt64) (byte : UInt8) : UInt64 := (h ^^^ byte.toUInt64) * prime

end Fnv

def fnv1a (bytes : List UInt8) : UInt64 := bytes.foldl Fnv.absorb Fnv.basis

end PersistentCollections
