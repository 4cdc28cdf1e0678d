/-! Integers of a fixed width. A format is a number of bits with or without a
sign; its integers are the ones that it can hold. -/

namespace PersistentCollections

structure IntFormat where
  signed : Bool
  bits : Nat
deriving DecidableEq

namespace IntFormat

def i8 : IntFormat := ⟨true, 8⟩
def i16 : IntFormat := ⟨true, 16⟩
def i32 : IntFormat := ⟨true, 32⟩
def i64 : IntFormat := ⟨true, 64⟩
def i128 : IntFormat := ⟨true, 128⟩
def u8 : IntFormat := ⟨false, 8⟩
def u16 : IntFormat := ⟨false, 16⟩
def u32 : IntFormat := ⟨false, 32⟩
def u64 : IntFormat := ⟨false, 64⟩
def u128 : IntFormat := ⟨false, 128⟩

def name (f : IntFormat) : String := (if f.signed then "i" else "u") ++ toString f.bits

def span (f : IntFormat) : Int := (1 <<< f.bits : Nat)

def least (f : IntFormat) : Int := if f.signed then -(f.span / 2) else 0

def bound (f : IntFormat) : Int := f.least + f.span

theorem span_pos (f : IntFormat) : 0 < f.span := by
  have := Nat.two_pow_pos f.bits
  rw [span, Nat.one_shiftLeft]
  exact Int.natCast_pos.2 this

end IntFormat

structure FixedInt (f : IntFormat) where
  value : Int
  least_le : f.least ≤ value
  lt_bound : value < f.bound
deriving DecidableEq

namespace FixedInt

variable {f : IntFormat}

def ofInt? (n : Int) : Option (FixedInt f) :=
  if h : f.least ≤ n ∧ n < f.bound then some ⟨n, h.1, h.2⟩ else none

/-- The integer of the format that differs from `n` by a multiple of its span. -/
def wrap (n : Int) : FixedInt f where
  value := f.least + (n - f.least) % f.span
  least_le := by
    have := Int.emod_nonneg (n - f.least) (Int.ne_of_gt f.span_pos)
    omega
  lt_bound := by
    have := Int.emod_lt_of_pos (n - f.least) f.span_pos
    unfold IntFormat.bound
    omega

instance : Inhabited (FixedInt f) := ⟨wrap 0⟩

end FixedInt

/-- The lowest bytes of a number, least significant first. -/
def littleEndian (n : Nat) : (count : Nat) → List UInt8
  | 0 => []
  | count + 1 => UInt8.ofNat n :: littleEndian (n / 256) count

@[simp] theorem littleEndian_length (n count : Nat) : (littleEndian n count).length = count := by
  induction count generalizing n with
  | zero => rfl
  | succ count ih => rw [littleEndian, List.length_cons, ih]

end PersistentCollections
