import Mathlib
import TextAdventure.Proofs.Number.Nearest
import TextAdventure.Value.Operator

/-! # Integers as doubles

The double that an integer becomes stands for the nearest integer that a double can stand for, and two such
doubles are ordered as the integers they stand for. Doubles are taken apart into a sign, a mantissa of
fifty-three digits and an exponent.
-/
namespace TextAdventure.Number
open Float.Model (Format totalExponent)
open Float.Model.UnpackedFloat

variable {m k n : Nat} {e : Int}

theorem shiftRight_exact (m k : Nat) :
    ExtendedMantissa.ofMantissaAndAccuracy m .exact >>> k =
      ⟨m / 2 ^ k, decide (2 ^ k ≤ 2 * (m % 2 ^ k)), decide (2 * (m % 2 ^ k) % 2 ^ k ≠ 0)⟩ := by
  change k.repeat ExtendedMantissa.shiftRightOne _ = _
  induction k with
  | zero => simp [Nat.repeat, ExtendedMantissa.ofMantissaAndAccuracy, Nat.mod_one]
  | succ k ih =>
    have hsplit : m % 2 ^ (k + 1) = m % 2 ^ k + 2 ^ k * (m / 2 ^ k % 2) := by
      rw [Nat.pow_succ, Nat.mod_mul]
    have hlt := Nat.mod_lt m (Nat.two_pow_pos k)
    have hpow : 2 ^ (k + 1) = 2 * 2 ^ k := Nat.pow_succ'
    have hsticky : 2 * (m % 2 ^ (k + 1)) % 2 ^ (k + 1) = 2 * (m % 2 ^ k) := by
      rw [hpow, Nat.mul_mod_mul_left, Nat.mod_mod_of_dvd _ ⟨2, Nat.mul_comm _ _⟩]
    rw [Nat.repeat, ih, ExtendedMantissa.shiftRightOne]
    simp only [Nat.div_div_eq_div_mul, ← Nat.pow_succ, hsticky, ExtendedMantissa.mk.injEq, true_and]
    constructor
    · rw [hsplit, hpow]
      rcases Nat.mod_two_eq_zero_or_one (m / 2 ^ k) with h | h
      · simp [h]
        omega
      · simp [h]
    · rw [← Bool.decide_or, decide_eq_decide]
      by_cases hhalf : 2 ^ k ≤ 2 * (m % 2 ^ k)
      · have := Nat.two_pow_pos k
        simp only [hhalf, true_or, true_iff]
        omega
      · rw [Nat.mod_eq_of_lt (Nat.lt_of_not_le hhalf)]
        simp only [hhalf, false_or]

theorem roundedMantissa_shiftRight (m k : Nat) :
    (ExtendedMantissa.ofMantissaAndAccuracy m .exact >>> k).roundedMantissa = roundedUnits m k := by
  have hlt := Nat.mod_lt m (Nat.two_pow_pos k)
  rw [shiftRight_exact]
  rcases Nat.lt_trichotomy (2 * (m % 2 ^ k)) (2 ^ k) with h | h | h
  · have hno : ¬2 ^ k ≤ 2 * (m % 2 ^ k) := by omega
    have hunits : roundedUnits m k = m / 2 ^ k := by simp [roundedUnits]; omega
    rw [hunits, decide_eq_false hno]
    cases decide (2 * (m % 2 ^ k) % 2 ^ k ≠ 0) <;> rfl
  · have hunits : roundedUnits m k = m / 2 ^ k + m / 2 ^ k % 2 := by
      simp only [roundedUnits, h, Nat.lt_irrefl, false_or, true_and]
      split <;> omega
    rw [hunits, decide_eq_true h.ge, decide_eq_false (by simp [h])]
    rfl
  · have hunits : roundedUnits m k = m / 2 ^ k + 1 := by simp [roundedUnits, h]
    have hsticky : 2 * (m % 2 ^ k) % 2 ^ k ≠ 0 := by
      rw [Nat.mod_eq_sub_mod h.le, Nat.mod_eq_of_lt (by omega)]
      omega
    rw [hunits, decide_eq_true h.le, decide_eq_true hsticky]
    rfl

/-- A mantissa of fifty-three digits, and an exponent that makes it one at least and that a double has
place for. -/
structure IsNormal (m : Nat) (e : Int) : Prop where
  digits : 2 ^ 52 ≤ m ∧ m < 2 ^ 53
  exponent : -52 ≤ e ∧ e ≤ 971

/-- `u` is a double, and the integer it stands for is `n`. -/
inductive Stands : Float.Model.UnpackedFloat → Int → Prop
  | zero (s : Sign) : Stands (.zero s) 0
  | finite (s : Sign) {m : Nat} {e : Int} (hpos : 0 < m) (h : IsNormal m e) {n : Nat}
      (hvalue : m * 2 ^ (e + 52).toNat = n * 2 ^ 52) : Stands (.finite s m e hpos) (s.apply n)

theorem IsNormal.log2_eq (h : IsNormal m e) : m.log2 = 52 :=
  (Nat.log2_eq_iff (by have := h.digits.1; omega)).mpr h.digits

theorem targetExponent_eq {t : Int} (h : -1021 ≤ t) : Format.binary64.targetExponent t = t - 53 := by
  simp only [Format.targetExponent, Format.mantissaBits, Format.minExponent]
  omega

theorem shiftToTargetExponent_eq (h : -1022 ≤ m.log2 + e) :
    shiftToTargetExponent .binary64 m e .exact =
      (ExtendedMantissa.ofMantissaAndAccuracy m .exact >>> excessDigits m, e + excessDigits m) := by
  have hamount : (m.log2 + 1 + e - 53 - e : Int).toNat = excessDigits m := by
    simp only [excessDigits]
    omega
  rw [shiftToTargetExponent, totalExponent, targetExponent_eq (by omega), shiftToExponent, hamount]

/-- Where rounding has led to the next power of two, a second shift is needed, which loses nothing. -/
theorem isNormal_shift (hm : 2 ^ 52 ≤ m ∧ m ≤ 2 ^ 53) (he : -52 ≤ e ∧ e ≤ 970) :
    IsNormal (m / 2 ^ excessDigits m) (e + excessDigits m) ∧
      m / 2 ^ excessDigits m * 2 ^ (e + excessDigits m + 52).toNat = m * 2 ^ (e + 52).toNat := by
  rcases hm.2.lt_or_eq with hlt | rfl
  · rw [excessDigits_eq_zero hlt]
    simpa using IsNormal.mk ⟨hm.1, hlt⟩ (by omega)
  · have hone : excessDigits (2 ^ 53) = 1 := by simp only [excessDigits, Nat.log2_two_pow]
    rw [hone, show (e + (1 : Nat) + 52).toNat = (e + 52).toNat + 1 by omega]
    exact ⟨⟨by decide, by omega⟩, by ring⟩

theorem roundedUnits_filled (hn : n ≠ 0) :
    roundedUnits (n * 2 ^ (52 - n.log2)) (excessDigits n) * 2 ^ n.log2 = nearestNat n * 2 ^ 52 := by
  rcases Nat.lt_or_ge n.log2 52 with h | h
  · have hlt : n < 2 ^ 53 := (Nat.log2_lt hn).mp (by omega)
    rw [excessDigits_eq_zero hlt, roundedUnits_zero, nearestNat_of_lt hlt, Nat.mul_assoc, ← pow_add,
      Nat.sub_add_cancel h.le]
  · have hlog : n.log2 = excessDigits n + 52 := by simp only [excessDigits]; omega
    rw [Nat.sub_eq_zero_of_le h, pow_zero, Nat.mul_one, nearestNat, Nat.mul_assoc, ← pow_add, ← hlog]

theorem stands_roundWithAccuracy (s : Sign) {v : Nat} (hm : 52 ≤ m.log2)
    (he : -52 ≤ e + excessDigits m ∧ e + excessDigits m ≤ 970)
    (hvalue : roundedUnits m (excessDigits m) * 2 ^ (e + excessDigits m + 52).toNat = v * 2 ^ 52) :
    Stands (roundWithAccuracy .binary64 s m e .exact) (s.apply v) := by
  have hm0 : m ≠ 0 := by rintro rfl; simp at hm
  have hrange := roundedUnits_range hm hm0
  have hexcess : m.log2 = excessDigits m + 52 := by simp only [excessDigits]; omega
  set q := roundedUnits m (excessDigits m)
  have hlog := (Nat.le_log2 (show q ≠ 0 by omega)).mpr hrange.1
  obtain ⟨hnormal, hkept⟩ := isNormal_shift hrange he
  have hpos : 0 < q / 2 ^ excessDigits q := Nat.lt_of_lt_of_le (by decide) hnormal.digits.1
  have hround : roundWithAccuracy .binary64 s m e .exact =
      .finite s (q / 2 ^ excessDigits q) (e + excessDigits m + excessDigits q) hpos := by
    have hfirst := shiftToTargetExponent_eq (m := m) (e := e) (by omega)
    have hsecond := shiftToTargetExponent_eq (m := q) (e := e + excessDigits m) (by omega)
    simp only [roundWithAccuracy, hfirst, roundedMantissa_shiftRight]
    simp only [show roundedUnits m (excessDigits m) = q from rfl, hsecond, shiftRight_exact, hpos.ne',
      dite_false]
  rw [hround]
  exact .finite s hpos hnormal (hkept.trans hvalue)

theorem stands_round (s : Sign) (hn : n ≠ 0) (h : n < 2 ^ 64) :
    Stands (round .binary64 s n 0) (s.apply (nearestNat n)) := by
  have hL : n.log2 < 64 := (Nat.log2_lt hn).mpr h
  have hfill : (0 - (n.log2 + 1 + 0 - 53) : Int).toNat = 52 - n.log2 := by omega
  have hlog : (n * 2 ^ (52 - n.log2)).log2 = n.log2 + (52 - n.log2) := by
    rw [Nat.log2_eq_iff (Nat.mul_ne_zero hn (Nat.two_pow_pos _).ne')]
    rw [Nat.add_right_comm, pow_add, pow_add]
    exact ⟨Nat.mul_le_mul_right _ (Nat.log2_self_le hn),
      Nat.mul_lt_mul_of_pos_right Nat.lt_log2_self (Nat.two_pow_pos _)⟩
  have hexcess : excessDigits (n * 2 ^ (52 - n.log2)) = excessDigits n := by
    simp only [excessDigits, hlog]
    omega
  rw [Float.Model.UnpackedFloat.round, totalExponent, targetExponent_eq (by omega), decreaseExponent, hfill,
    Nat.shiftLeft_eq]
  refine stands_roundWithAccuracy s (by omega) ?_ ?_
  · rw [hexcess, excessDigits]
    omega
  · rw [hexcess, ← roundedUnits_filled hn]
    congr 2
    simp only [excessDigits]
    omega

theorem compare_scaled {m' k' : Nat} (hm : 2 ^ 52 ≤ m ∧ m < 2 ^ 53) (hm' : 2 ^ 52 ≤ m' ∧ m' < 2 ^ 53) :
    (compare k k').then (compare m m') = compare (m * 2 ^ k) (m' * 2 ^ k') := by
  have hless : ∀ {m m' k k' : Nat}, m < 2 ^ 53 → 2 ^ 52 ≤ m' → k < k' → m * 2 ^ k < m' * 2 ^ k' := by
    intro m m' k k' hm hm' hk
    calc m * 2 ^ k < 2 ^ 53 * 2 ^ k := Nat.mul_lt_mul_of_pos_right hm (Nat.two_pow_pos k)
      _ = 2 ^ 52 * 2 ^ (k + 1) := by ring
      _ ≤ m' * 2 ^ k' := Nat.mul_le_mul hm' (Nat.pow_le_pow_right (by decide) hk)
  rcases Nat.lt_trichotomy k k' with hk | rfl | hk
  · rw [compare_lt_iff_lt.mpr hk, compare_lt_iff_lt.mpr (hless hm.2 hm'.1 hk)]
    rfl
  · rw [compare_eq_iff_eq.mpr (rfl : k = k), Ordering.then, eq_comm]
    rcases Nat.lt_trichotomy m m' with h | rfl | h
    · rw [compare_lt_iff_lt.mpr h]
      exact compare_lt_iff_lt.mpr (Nat.mul_lt_mul_of_pos_right h (Nat.two_pow_pos k))
    · rw [compare_eq_iff_eq.mpr rfl, compare_eq_iff_eq.mpr rfl]
    · rw [compare_gt_iff_gt.mpr h]
      exact compare_gt_iff_gt.mpr (Nat.mul_lt_mul_of_pos_right h (Nat.two_pow_pos k))
  · rw [compare_gt_iff_gt.mpr hk, compare_gt_iff_gt.mpr (hless hm'.2 hm.1 hk)]
    rfl

theorem IsNormal.compare_eq {m' : Nat} {e' : Int} {n' : Nat} (h : IsNormal m e) (h' : IsNormal m' e')
    (hvalue : m * 2 ^ (e + 52).toNat = n * 2 ^ 52) (hvalue' : m' * 2 ^ (e' + 52).toNat = n' * 2 ^ 52) :
    (compare e e').then (compare m m') = compare (n : Int) n' := by
  have hexp : compare e e' = compare (e + 52).toNat (e' + 52).toNat := by
    have := h.exponent
    have := h'.exponent
    rcases Int.lt_trichotomy e e' with he | rfl | he
    · rw [compare_lt_iff_lt.mpr he, compare_lt_iff_lt.mpr (by omega)]
    · rw [compare_eq_iff_eq.mpr rfl, compare_eq_iff_eq.mpr rfl]
    · rw [compare_gt_iff_gt.mpr he, compare_gt_iff_gt.mpr (by omega)]
  rw [hexp, compare_scaled h.digits h'.digits, hvalue, hvalue']
  rcases Nat.lt_trichotomy n n' with hn | rfl | hn
  · rw [compare_lt_iff_lt.mpr (by omega), compare_lt_iff_lt.mpr (by omega)]
  · rw [compare_eq_iff_eq.mpr rfl, compare_eq_iff_eq.mpr rfl]
  · rw [compare_gt_iff_gt.mpr (by omega), compare_gt_iff_gt.mpr (by omega)]

theorem IsNormal.value_pos (h : IsNormal m e) (hvalue : m * 2 ^ (e + 52).toNat = n * 2 ^ 52) :
    0 < n := by
  have hm : 0 < m := Nat.lt_of_lt_of_le (by decide) h.digits.1
  have := Nat.mul_pos hm (Nat.two_pow_pos (e + 52).toNat)
  omega

variable {u v : Float.Model.UnpackedFloat} {a b : Int}

theorem Stands.compare_eq (hu : Stands u a) (hv : Stands v b) : u.compare v = some (compare a b) := by
  cases hu with
  | zero s =>
    cases hv with
    | zero s' => rfl
    | @finite s' m' e' hpos' h' n' hvalue' =>
      have := h'.value_pos hvalue'
      cases s' with
      | negative => exact congrArg some (compare_gt_iff_gt.mpr (by simp only [Sign.apply]; omega)).symm
      | positive => exact congrArg some (compare_lt_iff_lt.mpr (by simp only [Sign.apply]; omega)).symm
  | @finite s m e hpos h n hvalue =>
    have := h.value_pos hvalue
    cases hv with
    | zero s' =>
      cases s with
      | negative => exact congrArg some (compare_lt_iff_lt.mpr (by simp only [Sign.apply]; omega)).symm
      | positive => exact congrArg some (compare_gt_iff_gt.mpr (by simp only [Sign.apply]; omega)).symm
    | @finite s' m' e' hpos' h' n' hvalue' =>
      have := h'.value_pos hvalue'
      have heq := h.compare_eq h' hvalue hvalue'
      cases s <;> cases s'
      · have hswap : (compare (n : Int) n').swap = compare (-n : Int) (-n') := by
          rw [← Std.OrientedCmp.eq_swap]
          rcases Nat.lt_trichotomy n n' with hn | rfl | hn
          · rw [compare_gt_iff_gt.mpr (by omega), compare_gt_iff_gt.mpr (by omega)]
          · rw [compare_eq_iff_eq.mpr rfl, compare_eq_iff_eq.mpr rfl]
          · rw [compare_lt_iff_lt.mpr (by omega), compare_lt_iff_lt.mpr (by omega)]
        exact congrArg some ((congrArg Ordering.swap heq).trans hswap)
      · exact congrArg some (compare_lt_iff_lt.mpr (by simp only [Sign.apply]; omega)).symm
      · exact congrArg some (compare_gt_iff_gt.mpr (by simp only [Sign.apply]; omega)).symm
      · exact congrArg some heq

theorem Stands.neg (h : Stands u a) : Stands u.neg (-a) := by
  cases h with
  | zero s => exact .zero (-s)
  | @finite s m e hpos h n hvalue =>
    have hsign : -s.apply n = (-s).apply n := by cases s <;> simp [Sign.apply]
    rw [hsign]
    exact .finite (-s) hpos h hvalue

theorem Stands.unpack_pack (h : Stands u a) : unpack .binary64 (pack .binary64 u) = u := by
  cases h with
  | zero s => exact unpack_packedZero
  | @finite s m e hpos h n hvalue =>
    obtain ⟨hlow, hhigh⟩ := h.exponent
    obtain ⟨stored, hstored⟩ : ∃ stored : Nat, (stored : Int) = e + 1075 :=
      ⟨(e + 1075).toNat, by omega⟩
    have hpack : pack .binary64 (.finite s m e hpos) =
        packComponents .binary64 s (BitVec.ofNat 11 stored) (BitVec.ofNat 52 m) := by
      have hbiased : (e + ((2 ^ (11 - 1) - 1 : Nat) : Int) + (52 : Nat)).toNat = stored := by omega
      simp only [pack, h.log2_eq, Format.exponentBias, Format.mantissaBits, hbiased]
      rw [if_neg (by omega), if_pos trivial]
    have hvec : (BitVec.ofNat 11 stored).toNat = stored := by
      rw [BitVec.toNat_ofNat, Nat.mod_eq_of_lt (by omega)]
    -- neither of the two patterns that no normal double is stored with
    have hones : BitVec.ofNat 11 stored ≠ -1#_ := by
      intro hbad
      have : stored = 2047 := hvec.symm.trans (congrArg BitVec.toNat hbad)
      omega
    have hzero : BitVec.ofNat 11 stored ≠ 0#_ := by
      intro hbad
      have : stored = 0 := hvec.symm.trans (congrArg BitVec.toNat hbad)
      omega
    have hmantissa : (1#1 ++ BitVec.ofNat 52 m).toNat = m := by
      have := h.digits
      rw [BitVec.toNat_append, BitVec.toNat_ofNat, BitVec.toNat_ofNat,
        ← Nat.shiftLeft_add_eq_or_of_lt (Nat.mod_lt m (Nat.two_pow_pos 52)), Nat.shiftLeft_eq]
      omega
    rw [hpack, unpack]
    simp only [unpackSign_packComponents, Sign.ofBitVec_toBitVec, unpackExponent_packComponents,
      unpackMantissa_packComponents, hones, hzero, if_false, hvec, hmantissa, Format.exponentBias]
    congr 1
    omega

theorem stands_ofNat (h : n < 2 ^ 64) : Stands (ofNat .binary64 n) (nearest n) := by
  rw [nearest_natCast, ofNat, ofInt, Float.Model.UnpackedFloat.normalize]
  rcases Nat.eq_zero_or_pos n with rfl | hn
  · rw [nearestNat_of_lt (by decide)]
    exact .zero .positive
  · rw [compare_gt_iff_gt.mpr (by omega)]
    exact stands_round .positive hn.ne' h

/-- `x` stands for the integer `a`. -/
def StandsFor (x : Float) (a : Int) : Prop :=
  Stands x.toModel.unpack a

theorem standsFor_toFloat (n : UInt64) : StandsFor n.toFloat (nearest n.toNat) := by
  have h : Stands (ofUInt64 .binary64 n) (nearest n.toNat) := stands_ofNat n.toNat_lt
  rw [StandsFor, UInt64.toFloat, Float.Model.ofUInt64, Float.Model.unpack, Float.Model.pack, h.unpack_pack]
  exact h

theorem StandsFor.neg {x : Float} (h : StandsFor x a) : StandsFor (-x) (-a) := by
  change Stands (unpack _ (pack _ x.toModel.unpack.neg)) (-a)
  rw [(Stands.neg h).unpack_pack]
  exact Stands.neg h

theorem toNat_toUInt64_of_nonneg {n : Int64} (h : 0 ≤ n.toInt) : (n.toUInt64.toNat : Int) = n.toInt := by
  have hn : n.toInt = n.toBitVec.toInt := rfl
  have htoNat : n.toUInt64.toNat = n.toBitVec.toNat := rfl
  rw [BitVec.toInt_eq_toNat_cond] at hn
  have := n.toBitVec.isLt
  split at hn <;> omega

theorem toNat_toUInt64_neg {n : Int64} (h : n.toInt < 0) : ((-n).toUInt64.toNat : Int) = -n.toInt := by
  have hn : n.toInt = n.toBitVec.toInt := rfl
  have htoNat : (-n).toUInt64.toNat = (-n.toBitVec).toNat := rfl
  rw [BitVec.toInt_eq_toNat_cond] at hn
  rw [BitVec.toNat_neg] at htoNat
  have := n.toBitVec.isLt
  split at hn <;> omega

theorem standsFor_ofInt64 (n : Int64) : StandsFor (ofInt64 n) (nearest n.toInt) := by
  rw [ofInt64]
  by_cases h : n < 0
  · have := (standsFor_toFloat (-n).toUInt64).neg
    rw [toNat_toUInt64_neg (Int64.lt_iff_toInt_lt.mp h), nearest_neg, Int.neg_neg] at this
    rwa [if_pos h]
  · have := standsFor_toFloat n.toUInt64
    rw [toNat_toUInt64_of_nonneg (Int.not_lt.mp fun hlt => h (Int64.lt_iff_toInt_lt.mpr hlt))] at this
    rwa [if_neg h]

theorem StandsFor.lt_iff {x y : Float} (hx : StandsFor x a) (hy : StandsFor y b) : x < y ↔ a < b := by
  have h : x < y ↔ (x.toModel.unpack.compare y.toModel.unpack == some .lt) = true := decide_eq_true_iff
  rw [h, Stands.compare_eq hx hy]
  simp [compare_lt_iff_lt]

theorem StandsFor.beq_iff {x y : Float} (hx : StandsFor x a) (hy : StandsFor y b) : x == y ↔ a = b := by
  have h : (x == y) = (x.toModel.unpack.compare y.toModel.unpack == some .eq) := rfl
  rw [h, Stands.compare_eq hx hy]
  simp

theorem StandsFor.compareFloats_eq {x y : Float} (hx : StandsFor x a) (hy : StandsFor y b) :
    Value.compareFloats x y = some (compare a b) := by
  simp only [Value.compareFloats, hx.lt_iff hy, hx.beq_iff hy, hy.lt_iff hx]
  rcases Int.lt_trichotomy a b with h | rfl | h
  · rw [if_pos h, compare_lt_iff_lt.mpr h]
  · rw [if_neg (Int.lt_irrefl a), if_pos rfl, compare_eq_iff_eq.mpr rfl]
  · rw [if_neg (by omega), if_neg (by omega), if_pos h, compare_gt_iff_gt.mpr h]

/-- What equality of doubles looks at: a zero without its sign, and nothing of what is not a number. -/
def unsigned? : Float.Model.UnpackedFloat → Option Float.Model.UnpackedFloat
  | .notANumber => none
  | .zero _ => some (.zero .positive)
  | u => some u

theorem compare_sign_eq_iff {s t : Sign} : compare s t = .eq ↔ s = t := by
  refine ⟨fun h => ?_, fun h => ?_⟩
  · cases s <;> cases t <;> first | rfl | cases h
  · subst h
    cases s <;> rfl

theorem compare_eq_eq_iff : u.compare v = some .eq ↔ unsigned? u = unsigned? v ∧ (unsigned? u).isSome := by
  rcases u with ⟨_ | _⟩ | _ | s | ⟨_ | _, m, e, _⟩ <;> rcases v with ⟨_ | _⟩ | _ | t | ⟨_ | _, n, f, _⟩ <;>
    simp [Float.Model.UnpackedFloat.compare, unsigned?, compare_sign_eq_iff, and_comm]

variable {x y z : Float}

theorem beq_iff : x == y ↔ unsigned? x.toModel.unpack = unsigned? y.toModel.unpack ∧
    (unsigned? x.toModel.unpack).isSome := by
  have h : (x == y) = (x.toModel.unpack.compare y.toModel.unpack == some .eq) := rfl
  rw [h, beq_iff_eq, compare_eq_eq_iff]

theorem beq_comm (x y : Float) : (x == y) = (y == x) := by
  rw [Bool.eq_iff_iff, beq_iff, beq_iff]
  exact ⟨fun h => ⟨h.1.symm, h.1 ▸ h.2⟩, fun h => ⟨h.1.symm, h.1 ▸ h.2⟩⟩

theorem beq_trans (h : x == y) (h' : y == z) : x == z := by
  rw [beq_iff] at h h' ⊢
  exact ⟨h.1.trans h'.1, h.2⟩

end TextAdventure.Number
