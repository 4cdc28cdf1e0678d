import Mathlib

/-! How large floating-point numbers are, as far as the exponent of the leading bit tells it.
The numbers are those of the unpacked form, a mantissa times a power of two. A rounding raises
the exponent of the leading bit by one at most, and packing a number does not raise it. -/

open Float.Model (Format totalExponent)
open Float.Model.UnpackedFloat (Sign Accuracy ExtendedMantissa shiftToExponent
  shiftToTargetExponent roundWithAccuracy roundToInt decreaseExponent divCore packComponents
  unpackMantissa unpackExponent_packComponents unpackMantissa_packComponents)

namespace PersistentCollections.FloatRange

/-! ### Shifts -/

theorem shift_mantissa (em : ExtendedMantissa) (k : Nat) :
    (em >>> k).mantissa = em.mantissa / 2 ^ k := by
  induction k with
  | zero => exact (Nat.div_one _).symm
  | succ k ih =>
    change (em >>> k).mantissa / 2 = _
    rw [ih, Nat.div_div_eq_div_mul, Nat.pow_succ]

theorem roundedMantissa_le (em : ExtendedMantissa) : em.roundedMantissa ≤ em.mantissa + 1 := by
  obtain ⟨m, half, rest⟩ := em
  cases half <;> cases rest <;>
    simp [ExtendedMantissa.roundedMantissa, ExtendedMantissa.accuracy, Accuracy.roundToNearestEven]
  omega

theorem ofMantissaAndAccuracy_mantissa (m : Nat) (a : Accuracy) :
    (ExtendedMantissa.ofMantissaAndAccuracy m a).mantissa = m := by
  rcases a with _ | (_ | _ | _) <;> rfl

/-! ### Whole parts -/

theorem roundToInt_eq (s : Sign) (m : Nat) (e : Int) :
    roundToInt s m e = s.apply (m <<< e.toNat / 2 ^ (-e).toNat : Nat) := by
  have left : (e - 0).toNat = e.toNat := by rw [Int.sub_zero]
  have right : (0 - (e - (e.toNat : Int))).toNat = (-e).toNat := by omega
  simp only [roundToInt, decreaseExponent, shiftToExponent, left, right, shift_mantissa]
  rfl

theorem whole_lt {m : Nat} {e : Int} (bits : m < 2 ^ 53) (small : e ≤ 11) :
    m <<< e.toNat / 2 ^ (-e).toNat < 2 ^ 64 - 1 := by
  have power : 2 ^ e.toNat ≤ 2 ^ 11 := Nat.pow_le_pow_right (by decide) (by omega)
  calc m <<< e.toNat / 2 ^ (-e).toNat
      ≤ m <<< e.toNat := Nat.div_le_self _ _
    _ = m * 2 ^ e.toNat := Nat.shiftLeft_eq _ _
    _ ≤ (2 ^ 53 - 1) * 2 ^ 11 := Nat.mul_le_mul (by omega) power
    _ < 2 ^ 64 - 1 := by decide

theorem le_whole {m : Nat} {e : Int} (leading : 2 ^ 52 ≤ m) (large : 12 ≤ e) :
    2 ^ 64 ≤ m <<< e.toNat / 2 ^ (-e).toNat := by
  have power : 2 ^ 12 ≤ 2 ^ e.toNat := Nat.pow_le_pow_right (by decide) (by omega)
  have exact : (-e).toNat = 0 := by omega
  calc 2 ^ 64
      = 2 ^ 52 * 2 ^ 12 := by decide
    _ ≤ m * 2 ^ e.toNat := Nat.mul_le_mul leading power
    _ = m <<< e.toNat / 2 ^ (-e).toNat := by
        rw [exact, Nat.pow_zero, Nat.div_one, Nat.shiftLeft_eq]

/-! ### Stored numbers -/

theorem append_one (m : BitVec 52) : (1#1 ++ m).toNat = 2 ^ 52 + m.toNat := by
  rw [BitVec.toNat_append, ← Nat.shiftLeft_add_eq_or_of_lt m.isLt]
  rfl

theorem unpack_finite {x : Float.Model} {s : Sign} {m : Nat} {e : Int} {pos : 0 < m}
    (h : x.unpack = .finite s m e pos) : m < 2 ^ 53 ∧ (2 ^ 52 ≤ m ∨ e = -1074) := by
  rw [Float.Model.unpack, Float.Model.UnpackedFloat.unpack] at h
  dsimp only at h
  have bits : (@unpackMantissa .binary64 x.toBits.toBitVec).toNat < 2 ^ 52 := BitVec.isLt _
  split at h
  · split at h <;> contradiction
  · split at h
    · rename_i least
      split at h
      · contradiction
      · injection h with _ mantissa exponent
        rw [least] at exponent
        have value : e = -1074 := exponent.symm
        exact ⟨by omega, .inr value⟩
    · injection h with _ mantissa
      rw [append_one] at mantissa
      exact ⟨by omega, .inl (by omega)⟩

theorem unpack_log2 {x : Float.Model} {s : Sign} {m : Nat} {e : Int} {pos : 0 < m}
    (h : x.unpack = .finite s m e pos) (ordinary : -1074 < e) : 52 ≤ m.log2 :=
  (Nat.le_log2 (Nat.ne_of_gt pos)).2
    ((unpack_finite h).2.resolve_right fun least => by omega)

theorem unpack_limit :
    (2 ^ 64 : Nat).toFloat.toModel.unpack = .finite .positive (2 ^ 52) 12 (by decide) := by
  rfl

theorem ofNatClamp_toNat (n : Nat) : (UInt64.ofNatClamp n).toNat = min n (2 ^ 64 - 1) := by
  rw [UInt64.ofNatClamp]
  split
  · rename_i small
    exact (Nat.min_eq_left (Nat.le_pred_of_lt small)).symm
  · rename_i large
    rw [Nat.min_eq_right (Nat.le_of_lt (Nat.lt_of_lt_of_le (by decide) (Nat.le_of_not_lt large)))]
    rfl

theorem isLE_iff (d : Int) (m : Nat) (e : Int) :
    (((compare d e).then (compare (2 ^ 52) m)).isLE = true) ↔ d < e ∨ d = e ∧ 2 ^ 52 ≤ m := by
  rcases Int.lt_trichotomy d e with less | rfl | greater
  · rw [Int.compare_eq_lt.2 less]
    simp [less]
  · rw [Int.compare_eq_eq.2 rfl]
    simp [Nat.isLE_compare]
  · rw [Int.compare_eq_gt.2 greater]
    simp
    omega

theorem le_iff (x y : Float) :
    x ≤ y ↔ (x.toModel.unpack.compare y.toModel.unpack).any (·.isLE) = true := by
  change decide _ = true ↔ _
  rw [decide_eq_true_iff]
  rfl

theorem toUInt64_eq_greatest_iff (x : Float) :
    x.toUInt64.toNat = 2 ^ 64 - 1 ↔ (2 ^ 64 : Nat).toFloat ≤ x := by
  rw [le_iff, unpack_limit]
  change (UInt64.ofNatClamp (x.toModel.unpack.toInt 0 (UInt64.size - 1)).toNat).toNat = _ ↔ _
  rw [ofNatClamp_toNat]
  cases number : x.toModel.unpack with
  | notANumber => decide
  | zero s => cases s <;> decide
  | infinity s => cases s <;> decide
  | finite s m e pos =>
    cases s with
    | negative =>
      have nothing : (roundToInt .negative m e).toNat = 0 := by
        rw [roundToInt_eq]
        exact Int.toNat_neg_natCast _
      change min (roundToInt .negative m e).toNat _ = _ ↔ false = true
      rw [nothing]
      decide
    | positive =>
      obtain ⟨bits, leading⟩ := unpack_finite number
      change min (roundToInt .positive m e).toNat _ = _ ↔
        ((compare (12 : Int) e).then (compare (2 ^ 52) m)).isLE = true
      rw [roundToInt_eq, Sign.apply, Int.toNat_natCast, isLE_iff]
      by_cases small : e ≤ 11
      · have below := whole_lt bits small
        exact iff_of_false (by omega) (by omega)
      · have above := le_whole (leading.resolve_right (by omega)) (by omega : 12 ≤ e)
        exact iff_of_true (by omega) (by omega)

/-! ### Rounding -/

/-- Below this power of two in size, if it is a number. -/
inductive Below (k : Int) : Float.Model.UnpackedFloat → Prop
  | notANumber : Below k .notANumber
  | zero (s : Sign) : Below k (.zero s)
  | finite {s : Sign} {m : Nat} {e : Int} {pos : 0 < m} (bound : totalExponent m e ≤ k) :
    Below k (.finite s m e pos)

theorem Below.mono {j k : Int} {f : Float.Model.UnpackedFloat} (le : j ≤ k) (h : Below j f) :
    Below k f := by
  cases h with
  | notANumber => exact .notANumber
  | zero s => exact .zero s
  | finite bound => exact .finite (Int.le_trans bound le)

theorem log2_div_le {m n : Nat} (pos : 0 < n) (some : m / n ≠ 0) :
    (m / n).log2 + n.log2 ≤ m.log2 := by
  have positive : m ≠ 0 := fun none => some (by rw [none, Nat.zero_div])
  refine (Nat.le_log2 positive).2 ?_
  calc 2 ^ ((m / n).log2 + n.log2)
      = 2 ^ (m / n).log2 * 2 ^ n.log2 := Nat.pow_add _ _ _
    _ ≤ m / n * n := Nat.mul_le_mul (Nat.log2_self_le some) (Nat.log2_self_le (Nat.ne_of_gt pos))
    _ ≤ m := Nat.div_mul_le_self _ _

theorem log2_div_two_pow_le {m k : Nat} (some : m / 2 ^ k ≠ 0) :
    (m / 2 ^ k).log2 + k ≤ m.log2 := by
  have dropped := log2_div_le (Nat.two_pow_pos k) some
  rwa [Nat.log2_two_pow] at dropped

theorem shiftToTargetExponent_eq (m : Nat) (e : Int) (a : Accuracy) :
    ∃ j : Nat, (shiftToTargetExponent .binary64 m e a).1.mantissa = m / 2 ^ j ∧
      (shiftToTargetExponent .binary64 m e a).2 = e + j ∧
      (j = 0 ∨ e + j = max (totalExponent m e - 53) (-1074)) := by
  refine ⟨(max (totalExponent m e - 53) (-1074) - e).toNat, ?_, rfl, by omega⟩
  exact (shift_mantissa _ _).trans (congrArg (· / _) (ofMantissaAndAccuracy_mantissa m a))

theorem shifted_total {m : Nat} {e : Int} {a : Accuracy}
    (some : (shiftToTargetExponent .binary64 m e a).1.mantissa ≠ 0) :
    totalExponent (shiftToTargetExponent .binary64 m e a).1.mantissa
      (shiftToTargetExponent .binary64 m e a).2 ≤ totalExponent m e := by
  obtain ⟨j, mantissa, exponent, _⟩ := shiftToTargetExponent_eq m e a
  rw [mantissa] at some
  have dropped := log2_div_two_pow_le some
  rw [mantissa, exponent, totalExponent, totalExponent]
  omega

/-- Rounding up may set the bit before the first one. -/
theorem rounded_total {k : Int} (least : -1074 ≤ k) {m : Nat} {e : Int} (a : Accuracy)
    (bound : totalExponent m e ≤ k) :
    totalExponent (shiftToTargetExponent .binary64 m e a).1.roundedMantissa
      (shiftToTargetExponent .binary64 m e a).2 ≤ k + 1 := by
  obtain ⟨j, mantissa, exponent, raised⟩ := shiftToTargetExponent_eq m e a
  have rounded := roundedMantissa_le (shiftToTargetExponent .binary64 m e a).1
  rw [mantissa] at rounded
  rw [exponent]
  generalize (shiftToTargetExponent .binary64 m e a).1.roundedMantissa = r at *
  rw [totalExponent] at bound raised ⊢
  by_cases none : m / 2 ^ j = 0
  · have bits : r.log2 = 0 := by
      have one : r = 0 ∨ r = 1 := by omega
      rcases one with rfl | rfl <;> rfl
    omega
  · have dropped := log2_div_two_pow_le none
    have above : r < 2 ^ ((m / 2 ^ j).log2 + 1) + 1 :=
      Nat.lt_of_le_of_lt rounded (Nat.add_lt_add_right Nat.lt_log2_self 1)
    have bits : r.log2 ≤ (m / 2 ^ j).log2 + 1 := by
      by_cases zero : r = 0
      · rw [zero]
        exact Nat.zero_le _
      · refine Nat.le_of_lt_succ ((Nat.log2_lt zero).2 ?_)
        rw [Nat.pow_succ _ (_ + 1)]
        omega
    omega

theorem roundWithAccuracy_below {k : Int} (least : -1074 ≤ k) (s : Sign) {m : Nat} {e : Int}
    (a : Accuracy) (bound : totalExponent m e ≤ k) :
    Below (k + 1) (roundWithAccuracy .binary64 s m e a) := by
  have first := rounded_total least a bound
  rw [roundWithAccuracy]
  dsimp only
  split
  · exact .zero s
  · rename_i some
    exact .finite (Int.le_trans (shifted_total some) first)

/-! ### Packing -/

theorem total_le_of_lt {m n : Nat} {e : Int} (pos : 0 < m) (bits : m < 2 ^ n) :
    totalExponent m e ≤ n + e := by
  have short : m.log2 < n := (Nat.log2_lt (Nat.ne_of_gt pos)).2 bits
  rw [totalExponent]
  omega

theorem unpack_components_below {k : Int} (s : Sign) {exponent : BitVec 11} (mantissa : BitVec 52)
    (finite : exponent ≠ -1#11) (bound : (exponent.toNat : Int) - 1022 ≤ k) :
    Below k (Float.Model.UnpackedFloat.unpack .binary64
      (packComponents .binary64 s exponent mantissa)) := by
  have bits := mantissa.isLt
  rw [Float.Model.UnpackedFloat.unpack]
  simp only [unpackExponent_packComponents, unpackMantissa_packComponents]
  rw [if_neg finite]
  split
  · rename_i least
    split
    · exact .zero _
    · rename_i some
      rw [least] at bound
      have pos : 0 < mantissa.toNat := BitVec.toNat_pos_of_ne_zero some
      refine .finite (Int.le_trans (total_le_of_lt pos bits) ?_)
      rw [least]
      exact bound
  · have whole : (1#1 ++ mantissa).toNat < 2 ^ 53 := by
      rw [append_one]
      omega
    have leading : 0 < (1#1 ++ mantissa).toNat := by
      rw [append_one]
      omega
    refine .finite (Int.le_trans (total_le_of_lt leading whole) ?_)
    change (53 : Nat) + ((exponent.toNat : Int) - 1075) ≤ k
    omega

theorem unpack_pack_below {k : Int} (least : -1022 ≤ k) (greatest : k ≤ 970)
    {f : Float.Model.UnpackedFloat} (bound : Below k f) : Below k (Float.Model.pack f).unpack := by
  cases bound with
  | notANumber => exact .notANumber
  | zero s => cases s <;> exact .zero _
  | @finite s m e pos bound =>
    have total : (m.log2 : Int) + 1 + e ≤ k := bound
    -- The biased exponent, which has no room for numbers below the least exponent.
    have biased : ((e + 1023 + 52).toNat : Int) - 1022 ≤ max (e + 53) (-1022) := by omega
    have stored : (BitVec.ofNat 11 (e + 1023 + 52).toNat).toNat = (e + 1023 + 52).toNat := by
      rw [BitVec.toNat_ofNat, Nat.mod_eq_of_lt (by omega)]
    change Below k (Float.Model.UnpackedFloat.unpack .binary64
      (if 2 ^ 11 ≤ (e + 1023 + 52).toNat + 1 then _ else if m.log2 + 1 = 53 then
        packComponents .binary64 s (BitVec.ofNat 11 (e + 1023 + 52).toNat) (BitVec.ofNat 52 m)
      else packComponents .binary64 s 0#11 (BitVec.ofNat 52 m)))
    rw [if_neg (by omega)]
    split
    · refine unpack_components_below s _ (fun full => ?_) (by omega)
      have value := congrArg BitVec.toNat full
      rw [stored] at value
      have most : (-1#11).toNat = 2047 := by decide
      omega
    · exact unpack_components_below s _ (by decide) (Int.le_trans (by decide) least)

/-! ### Counts -/

theorem log2_mul_two_pow {m : Nat} (pos : 0 < m) (j : Nat) : (m * 2 ^ j).log2 = m.log2 + j := by
  have some : m ≠ 0 := Nat.ne_of_gt pos
  have power : 0 < 2 ^ j := Nat.two_pow_pos j
  refine (Nat.log2_eq_iff (Nat.mul_ne_zero some (Nat.ne_of_gt power))).2 ⟨?_, ?_⟩
  · rw [Nat.pow_add]
    exact Nat.mul_le_mul_right _ (Nat.log2_self_le some)
  · rw [Nat.add_right_comm, Nat.pow_add]
    exact Nat.mul_lt_mul_of_pos_right Nat.lt_log2_self power

theorem total_mul_two_pow {m : Nat} (pos : 0 < m) (e : Int) (j : Nat) :
    totalExponent (m * 2 ^ j) (e - j) = totalExponent m e := by
  rw [totalExponent, totalExponent, log2_mul_two_pow pos]
  omega

theorem ofNat_below {n : Nat} {k : Int} (least : -1074 ≤ k) (bound : totalExponent n 0 ≤ k) :
    Below (k + 1) (Float.Model.UnpackedFloat.ofNat .binary64 n) := by
  rw [Float.Model.UnpackedFloat.ofNat, Float.Model.UnpackedFloat.ofInt,
    Float.Model.UnpackedFloat.normalize]
  split
  · rename_i less
    have below := Int.compare_eq_lt.1 less
    omega
  · exact .zero _
  · rename_i greater
    have pos : 0 < n := Int.natCast_pos.1 (Int.compare_eq_gt.1 greater)
    rw [Float.Model.UnpackedFloat.round, Int.toNat_natCast]
    simp only [decreaseExponent, Nat.shiftLeft_eq]
    exact roundWithAccuracy_below least _ _
      (Int.le_trans (Int.le_of_eq (total_mul_two_pow pos _ _)) bound)

theorem mul_below {k : Int} (least : -1074 ≤ k) (s t : Sign) {m n : Nat} {d e : Int}
    (mpos : 0 < m) (npos : 0 < n) (bound : totalExponent (m * n) (d + e) ≤ k) :
    Below (k + 1)
      (Float.Model.UnpackedFloat.mul .binary64 (.finite s m d mpos) (.finite t n e npos)) :=
  roundWithAccuracy_below least _ _ bound

theorem mul_one_below {k : Int} (least : -1074 ≤ k) {f : Float.Model.UnpackedFloat}
    (bound : Below k f) :
    Below (k + 1) (f.mul .binary64 (.finite .positive (2 ^ 52) (-52) (by decide))) := by
  cases bound with
  | notANumber => exact .notANumber
  | zero s => exact .zero _
  | @finite s m e pos bound =>
    exact mul_below least _ _ pos _ (Int.le_trans (Int.le_of_eq (total_mul_two_pow pos _ 52)) bound)

theorem unpack_ten_pow_zero : Float.exactlyRepresentablePowersOfTen[0].toModel.unpack =
    .finite .positive (2 ^ 52) (-52) (by decide) := by
  rfl

/-- A count of at most 53 bits is converted as it is, and then scaled by one. -/
theorem toFloat_short {n : Nat} (short : n < 2 ^ 53) :
    n.toFloat.toModel = Float.Model.pack
      ((Float.Model.pack (Float.Model.UnpackedFloat.ofNat .binary64 n)).unpack.mul .binary64
        (.finite .positive (2 ^ 52) (-52) (by decide))) := by
  have made : n.toFloat = n.toUInt64.toFloat * Float.exactlyRepresentablePowersOfTen[0] :=
    dif_pos ⟨short, by decide⟩
  have same : n.toUInt64.toNat = n := Nat.mod_eq_of_lt (by omega)
  rw [made]
  change Float.Model.pack ((Float.Model.pack (Float.Model.UnpackedFloat.ofNat .binary64
    n.toUInt64.toNat)).unpack.mul .binary64
      Float.exactlyRepresentablePowersOfTen[0].toModel.unpack) = _
  rw [same, unpack_ten_pow_zero]

theorem toFloat_long {n : Nat} (pos : 0 < n) (long : 2 ^ 53 ≤ n) :
    n.toFloat.toModel = Float.Model.pack
      (Float.Model.UnpackedFloat.mul .binary64
        (.finite .positive (n <<< 53) (-53) (Nat.lt_of_lt_of_le pos (Nat.le_shiftLeft)))
        (.finite .positive (10 ^ 0) 0 (by decide))) := by
  have made : n.toFloat = ⟨Float.Model.ofScientific n 0⟩ :=
    dif_neg fun h => Nat.not_lt.2 long h.1
  have least : ¬ ((0 : Int) < -(2 ^ 11 + (n.log2 : Int))) := by omega
  rw [made, Float.Model.ofScientific, Float.Model.UnpackedFloat.ofScientific,
    dif_neg (Nat.ne_of_gt pos), if_neg (by decide), if_neg least, if_pos (by decide)]
  rfl

theorem toFloat_below {n : Nat} (small : n < 2 ^ 62) : Below 63 n.toFloat.toModel.unpack := by
  by_cases short : n < 2 ^ 53
  · rw [toFloat_short short]
    have bound : totalExponent n 0 ≤ 53 := by
      rcases Nat.eq_zero_or_pos n with rfl | pos
      · decide
      · exact total_le_of_lt pos short
    have whole : Below 54 (Float.Model.pack (Float.Model.UnpackedFloat.ofNat .binary64 n)).unpack :=
      unpack_pack_below (by decide) (by decide) (ofNat_below (by decide) bound)
    have product := mul_one_below (by decide) whole
    exact unpack_pack_below (by decide) (by decide) (product.mono (by decide))
  · have long := Nat.le_of_not_lt short
    have pos : 0 < n := Nat.lt_of_lt_of_le (by decide) long
    rw [toFloat_long pos long]
    have scaled : totalExponent (n <<< 53 * 10 ^ 0) (-53 + 0) ≤ 62 := by
      rw [Nat.shiftLeft_eq, Nat.pow_zero, Nat.mul_one]
      exact Int.le_trans (Int.le_of_eq (total_mul_two_pow pos 0 53)) (total_le_of_lt pos small)
    have shifted : 0 < n <<< 53 := Nat.lt_of_lt_of_le pos Nat.le_shiftLeft
    exact unpack_pack_below (by decide) (by decide)
      (mul_below (by decide) .positive .positive shifted (by decide) scaled)

/-! ### Quotients -/

inductive Above (k : Int) : Float.Model.UnpackedFloat → Prop
  | infinity : Above k (.infinity .positive)
  | finite {m : Nat} {e : Int} {pos : 0 < m} (bound : k ≤ totalExponent m e) :
    Above k (.finite .positive m e pos)

theorem above_one {x : Float} (one : 1 ≤ x) : Above 1 x.toModel.unpack := by
  have unit : (1 : Float).toModel.unpack = .finite .positive (2 ^ 52) (-52) (by decide) := rfl
  rw [le_iff, unit] at one
  cases number : x.toModel.unpack with
  | notANumber =>
    rw [number] at one
    contradiction
  | zero s =>
    rw [number] at one
    contradiction
  | infinity s =>
    rw [number] at one
    cases s with
    | negative => contradiction
    | positive => exact .infinity
  | finite s m e pos =>
    rw [number] at one
    cases s with
    | negative => contradiction
    | positive =>
      have order : -52 < e ∨ -52 = e ∧ 2 ^ 52 ≤ m := (isLE_iff (-52) m e).1 one
      have bits := unpack_log2 number (by omega)
      refine .finite ?_
      rw [totalExponent]
      omega

theorem divCore_total {k : Int} (least : -1073 ≤ k) {m n : Nat} {d e : Int} (mpos : 0 < m)
    (npos : 0 < n) (bound : totalExponent m d - totalExponent n e + 1 ≤ k) :
    totalExponent (divCore .binary64 m d n e).1 (divCore .binary64 m d n e).2.1 ≤ k := by
  generalize raised : min (d - e) (max (totalExponent m d - totalExponent n e - 53) (-1074)) = t
  have core : (divCore .binary64 m d n e).1 = (m * 2 ^ (d - e - t).toNat) / n ∧
      (divCore .binary64 m d n e).2.1 = t := by
    rw [← Nat.shiftLeft_eq, ← raised]
    exact ⟨rfl, rfl⟩
  rw [core.1, core.2]
  generalize quotient : m * 2 ^ (d - e - t).toNat / n = q
  simp only [totalExponent] at raised bound ⊢
  by_cases none : q = 0
  · have bits : q.log2 = 0 := by rw [none]; rfl
    omega
  · have shifted := log2_mul_two_pow mpos (d - e - t).toNat
    rw [← quotient] at none
    have bits := log2_div_le npos none
    rw [quotient] at bits
    omega

theorem div_below {j i k : Int} (least : -1073 ≤ k) {f g : Float.Model.UnpackedFloat}
    (small : Below j f) (large : Above i g) (bound : j - i + 1 ≤ k) :
    Below (k + 1) (f.div .binary64 g) := by
  cases small with
  | notANumber => exact .notANumber
  | zero s =>
    cases large with
    | infinity => exact .zero _
    | finite _ => exact .zero _
  | @finite s m d pos total =>
    cases large with
    | infinity => exact .zero _
    | @finite n e npos from_below =>
      exact roundWithAccuracy_below (by omega) _ _ (divCore_total least pos npos (by omega))

theorem not_limit_le {x : Float} (below : Below 64 x.toModel.unpack) :
    ¬ (2 ^ 64 : Nat).toFloat ≤ x := by
  rw [le_iff, unpack_limit]
  intro reached
  generalize number : x.toModel.unpack = f at *
  cases below with
  | notANumber => contradiction
  | zero s => cases s <;> contradiction
  | @finite s m e pos total =>
    cases s with
    | negative => contradiction
    | positive =>
      have order : 12 < e ∨ 12 = e ∧ 2 ^ 52 ≤ m := (isLE_iff 12 m e).1 reached
      have bits := unpack_log2 number (by omega)
      rw [totalExponent] at total
      omega

theorem not_limit_le_div {n : Nat} {d : Float} (small : n < 2 ^ 62) (one : 1 ≤ d) :
    ¬ (2 ^ 64 : Nat).toFloat ≤ n.toFloat / d :=
  not_limit_le <| unpack_pack_below (by decide) (by decide)
    (div_below (k := 63) (by decide) (toFloat_below small) (above_one one) (by decide))

end PersistentCollections.FloatRange
