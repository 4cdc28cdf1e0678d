import Mathlib.Algebra.Group.Nat.Defs
import PersistentCollections.Hash.Feed

/-! Feeds that say where they end. Among some values the law is that no feed begins with the
feed of an unequal value, so that feeds one after the other can be told apart without anything
between them; equal values give the same bytes. Numbers of one width have it, and texts, whose
last byte stands nowhere else in them; options, pairs and, for lengths below 2^64, sequences
have it where their parts do. -/

namespace PersistentCollections

variable {α β : Type} [BEq α] [HashFeed α] [BEq β] [HashFeed β]

structure PrefixFree (among : α → Prop) : Prop where
  agree : ∀ a b : α, (a == b) = true → feed a = feed b
  apart : ∀ a b : α, among a → among b → feed a <+: feed b → (a == b) = true

namespace PrefixFree

variable {among : α → Prop} {others : β → Prop}

theorem ofWidth (width : Nat) (sized : ∀ a, among a → (feed a).length = width)
    (agree : ∀ a b : α, (a == b) = true → feed a = feed b)
    (told : ∀ a b, among a → among b → feed a = feed b → (a == b) = true) :
    PrefixFree among := by
  refine ⟨agree, fun a b ha hb begins => told a b ha hb ?_⟩
  exact begins.eq_of_length ((sized a ha).trans (sized b hb).symm)

theorem option (law : PrefixFree among) :
    PrefixFree fun o : Option α => ∀ a, o = some a → among a := by
  have tags : feedLength 0 ≠ feedLength 1 := by decide
  constructor
  case agree =>
    rintro (_ | a) (_ | b) equal
    · rfl
    · contradiction
    · contradiction
    · exact congrArg (feedLength 1 ++ ·) (law.agree a b equal)
  case apart =>
    rintro (_ | a) (_ | b) ha hb begins
    · rfl
    · exact absurd ((List.prefix_of_prefix_length_le begins (List.prefix_append _ _)
        (Nat.le_refl _)).eq_of_length rfl) tags
    · have tag : feedLength 1 <+: feedLength 0 := (List.prefix_append _ _).trans begins
      exact absurd (tag.eq_of_length rfl).symm tags
    · exact law.apart a b (ha a rfl) (hb b rfl) ((List.prefix_append_right_inj _).1 begins)

variable [EquivBEq α]

theorem split (law : PrefixFree among) {a b : α} {s t : List UInt8} (ha : among a) (hb : among b)
    (begins : feed a ++ s <+: feed b ++ t) : (a == b) = true ∧ s <+: t := by
  have first : feed a <+: feed b ++ t := (List.prefix_append _ _).trans begins
  have equal : (a == b) = true := by
    rcases List.prefix_or_prefix_of_prefix first (List.prefix_append _ _) with short | long
    · exact law.apart a b ha hb short
    · exact BEq.symm (law.apart b a hb ha long)
  rw [law.agree a b equal] at begins
  exact ⟨equal, (List.prefix_append_right_inj _).1 begins⟩

theorem pair (law : PrefixFree among) (law' : PrefixFree others) :
    PrefixFree fun p : α × β => among p.1 ∧ others p.2 := by
  constructor
  case agree =>
    rintro ⟨a, b⟩ ⟨a', b'⟩ equal
    obtain ⟨first, second⟩ := Bool.and_eq_true_iff.1 equal
    change feed a ++ feed b = feed a' ++ feed b'
    rw [law.agree a a' first, law'.agree b b' second]
  case apart =>
    rintro ⟨a, b⟩ ⟨a', b'⟩ ⟨ha, hb⟩ ⟨ha', hb'⟩ begins
    obtain ⟨first, rest⟩ := law.split ha ha' begins
    exact Bool.and_eq_true_iff.2 ⟨first, law'.apart b b' hb hb' rest⟩

end PrefixFree

/-! ### Numbers -/

theorem littleEndian_inj {m n count : Nat} (hm : m < 256 ^ count) (hn : n < 256 ^ count)
    (same : littleEndian m count = littleEndian n count) : m = n := by
  induction count generalizing m n with
  | zero => rw [Nat.pow_zero] at hm hn; omega
  | succ count ih =>
    obtain ⟨low, high⟩ := List.cons_eq_cons.1 same
    rw [Nat.pow_succ] at hm hn
    have above : m / 256 = n / 256 :=
      ih (Nat.div_lt_of_lt_mul (by omega)) (Nat.div_lt_of_lt_mul (by omega)) high
    have below : m % 256 = n % 256 := by simpa using congrArg UInt8.toNat low
    omega

theorem FixedInt.toNat_emod_lt {f : IntFormat} (n : FixedInt f) :
    (n.value % f.span).toNat < 2 ^ f.bits := by
  have bound := Int.emod_lt_of_pos n.value f.span_pos
  have whole := Int.emod_nonneg n.value (Int.ne_of_gt f.span_pos)
  have span : f.span = (2 ^ f.bits : Nat) := by rw [IntFormat.span, Nat.one_shiftLeft]
  omega

theorem FixedInt.eq_of_emod {f : IntFormat} {m n : FixedInt f}
    (same : m.value % f.span = n.value % f.span) : m = n := by
  obtain ⟨m, lowM, highM⟩ := m
  obtain ⟨n, lowN, highN⟩ := n
  have near : m - f.least = n - f.least := by
    have left : (m - f.least) % f.span = m - f.least :=
      Int.emod_eq_of_lt (by omega) (by unfold IntFormat.bound at highM; omega)
    have right : (n - f.least) % f.span = n - f.least :=
      Int.emod_eq_of_lt (by omega) (by unfold IntFormat.bound at highN; omega)
    rw [← left, ← right, Int.emod_sub_cancel_right]
    exact same
  have equal : m = n := by omega
  subst equal
  rfl

theorem PrefixFree.fixedInt {f : IntFormat} (whole : 8 ∣ f.bits) :
    PrefixFree fun _ : FixedInt f => True := by
  refine .ofWidth (f.bits / 8) (fun _ _ => littleEndian_length _ _)
    (fun a b equal => congrArg feed (eq_of_beq equal)) fun a b _ _ same => beq_iff_eq.2 ?_
  have wide : 2 ^ f.bits = 256 ^ (f.bits / 8) := by
    rw [show 256 = 2 ^ 8 by rfl, ← Nat.pow_mul, Nat.mul_div_cancel' whole]
  have bytes := littleEndian_inj (wide ▸ a.toNat_emod_lt) (wide ▸ b.toNat_emod_lt) same
  have left := Int.emod_nonneg a.value (Int.ne_of_gt f.span_pos)
  have right := Int.emod_nonneg b.value (Int.ne_of_gt f.span_pos)
  exact FixedInt.eq_of_emod (by omega)

/-! ### Texts -/

theorem toList_eq_data (bytes : ByteArray) : bytes.toList = bytes.data.toList := by
  have loop (i : Nat) (seen : List UInt8) :
      ByteArray.toList.loop bytes i seen = seen.reverse ++ bytes.data.toList.drop i := by
    fun_induction ByteArray.toList.loop bytes i seen with
    | case1 i seen inside ih =>
      have within : i < bytes.data.toList.length := inside
      rw [ih, List.reverse_cons, List.append_assoc, List.drop_eq_getElem_cons within]
      simp [ByteArray.get!, inside]
    | case2 i seen outside =>
      have behind : bytes.data.toList.length ≤ i := Nat.le_of_not_lt outside
      rw [List.drop_eq_nil_of_le behind, List.append_nil]
  exact loop 0 []

/-- The byte that closes a text is in no character. -/
theorem utf8_lt (c : Char) : ∀ byte ∈ String.utf8EncodeChar c, byte < 0xFF := by
  have lower {n : Nat} (small : n < 0xFF) : UInt8.ofNat n < 0xFF := by
    rw [UInt8.lt_iff_toNat_lt, UInt8.toNat_ofNat']
    exact Nat.lt_of_le_of_lt (Nat.mod_le _ _) small
  have none : ∀ byte ∈ ([] : List UInt8), byte < 0xFF := List.forall_mem_nil _
  fun_cases String.utf8EncodeChar c <;> simp only [List.forall_mem_cons]
  case case1 => exact ⟨lower (by omega), none⟩
  case case2 => exact ⟨lower (by omega), lower (by omega), none⟩
  case case3 => exact ⟨lower (by omega), lower (by omega), lower (by omega), none⟩
  case case4 =>
    exact ⟨lower (by omega), lower (by omega), lower (by omega), lower (by omega), none⟩

theorem utf8_closed (s : String) : 0xFF ∉ s.toUTF8.toList := by
  rw [toList_eq_data, String.toUTF8, ← String.utf8Encode_toList, List.utf8Encode,
    List.toList_data_toByteArray]
  intro inside
  obtain ⟨c, _, member⟩ := List.mem_flatMap.1 inside
  exact absurd (utf8_lt c _ member) (UInt8.lt_irrefl _)

theorem PrefixFree.string : PrefixFree fun _ : String => True := by
  constructor
  case agree => exact fun a b equal => congrArg feed (eq_of_beq equal)
  case apart =>
    intro a b _ _ begins
    have bytes : a.toUTF8.toList = b.toUTF8.toList := by
      rcases List.prefix_concat_iff.1 begins with same | within
      · exact List.append_cancel_right same
      · have inside : 0xFF ∈ a.toUTF8.toList ++ [0xFF] := by simp
        exact absurd (within.subset inside) (utf8_closed b)
    rw [toList_eq_data, toList_eq_data, Array.toList_inj] at bytes
    exact beq_iff_eq.2 (String.toByteArray_inj.1 (ByteArray.ext bytes))

end PersistentCollections
