import Mathlib.Tactic.Ring
import TextAdventure.Number.Binary

/-! # The nearest double to an integer

A double has fifty-three binary digits, so from `2 ^ 53` on it stands only for multiples of a unit, a power
of two that grows with the number. An integer becomes the nearest such multiple, and the even one of two at
the same distance. Rounding keeps the order of any two integers, but not that they differ.
-/
namespace TextAdventure.Number

/-- How many units of `2 ^ k` are nearest to `n`, an even number of them at a tie. -/
def roundedUnits (n k : Nat) : Nat :=
  n / 2 ^ k +
    if 2 ^ k < 2 * (n % 2 ^ k) ∨ 2 * (n % 2 ^ k) = 2 ^ k ∧ n / 2 ^ k % 2 = 1 then 1 else 0

/-- The binary digits of a natural number that a double has no place for. -/
def excessDigits (n : Nat) : Nat :=
  n.log2 - 52

/-- The natural number that the double nearest to `n` stands for. -/
def nearestNat (n : Nat) : Nat :=
  roundedUnits n (excessDigits n) * 2 ^ excessDigits n

/-- The integer that the double nearest to `n` stands for. -/
def nearest (n : Int) : Int :=
  n.sign * nearestNat n.natAbs

variable {m n k : Nat}

theorem roundedUnits_zero : roundedUnits n 0 = n := by
  simp [roundedUnits, Nat.mod_one]

theorem roundedUnits_mono (h : m ≤ n) : roundedUnits m k ≤ roundedUnits n k := by
  have hm := Nat.div_add_mod m (2 ^ k)
  have hn := Nat.div_add_mod n (2 ^ k)
  rcases (Nat.div_le_div_right (c := 2 ^ k) h).lt_or_eq with hlt | heq
  · simp only [roundedUnits]
    split <;> split <;> omega
  · rw [heq] at hm
    simp only [roundedUnits, heq]
    split <;> split <;> omega

theorem roundedUnits_mul (u : Nat) : roundedUnits (u * 2 ^ k) k = u := by
  simp [roundedUnits, Nat.mul_div_cancel _ (Nat.two_pow_pos k), (Nat.two_pow_pos k).ne]

theorem excessDigits_mono (hm : m ≠ 0) (h : m ≤ n) : excessDigits m ≤ excessDigits n := by
  have hlog : m.log2 ≤ n.log2 := (Nat.le_log2 (by omega)).mpr ((Nat.log2_self_le hm).trans h)
  simp only [excessDigits]
  omega

theorem excessDigits_eq_zero (h : n < 2 ^ 53) : excessDigits n = 0 := by
  rcases Nat.eq_zero_or_pos n with rfl | hn
  · simp [excessDigits]
  · have := (Nat.log2_lt hn.ne').mpr h
    simp only [excessDigits]
    omega

theorem nearestNat_of_lt (h : n < 2 ^ 53) : nearestNat n = n := by
  simp [nearestNat, excessDigits_eq_zero h, roundedUnits_zero]

theorem roundedUnits_range (h : 52 ≤ n.log2) (hn : n ≠ 0) :
    2 ^ 52 ≤ roundedUnits n (excessDigits n) ∧ roundedUnits n (excessDigits n) ≤ 2 ^ 53 := by
  have hk : n.log2 = 52 + excessDigits n := by simp only [excessDigits]; omega
  have hlow : 2 ^ 52 * 2 ^ excessDigits n ≤ n := by
    rw [← pow_add, ← hk]
    exact Nat.log2_self_le hn
  have hhigh : n ≤ 2 ^ 53 * 2 ^ excessDigits n := by
    rw [← pow_add, show 53 + excessDigits n = n.log2 + 1 by omega]
    exact Nat.lt_log2_self.le
  constructor
  · simpa only [roundedUnits_mul] using roundedUnits_mono (k := excessDigits n) hlow
  · simpa only [roundedUnits_mul] using roundedUnits_mono (k := excessDigits n) hhigh

/-- Between numbers of different lengths lies a power of two, which rounding neither reaches from above nor
passes from below. -/
theorem nearestNat_mono (h : m ≤ n) : nearestNat m ≤ nearestNat n := by
  rcases Nat.eq_zero_or_pos m with rfl | hm
  · simp [nearestNat, excessDigits, roundedUnits]
  have hk := excessDigits_mono hm.ne' h
  rcases hk.lt_or_eq with hlt | heq
  · have hn : 52 ≤ n.log2 := by simp only [excessDigits] at hlt; omega
    have hup : nearestNat m ≤ 2 ^ 53 * 2 ^ excessDigits m := by
      by_cases h52 : 52 ≤ m.log2
      · exact Nat.mul_le_mul_right _ (roundedUnits_range h52 hm.ne').2
      · have hm53 : m < 2 ^ 53 := (Nat.log2_lt hm.ne').mp (by omega)
        rw [nearestNat_of_lt hm53, excessDigits_eq_zero hm53]
        omega
    calc nearestNat m ≤ 2 ^ 53 * 2 ^ excessDigits m := hup
      _ = 2 ^ 52 * 2 ^ (excessDigits m + 1) := by ring
      _ ≤ 2 ^ 52 * 2 ^ excessDigits n := Nat.mul_le_mul_left _ (Nat.pow_le_pow_right (by omega) hlt)
      _ ≤ nearestNat n := Nat.mul_le_mul_right _ (roundedUnits_range hn (by omega)).1
  · simp only [nearestNat, heq]
    exact Nat.mul_le_mul_right _ (roundedUnits_mono h)

variable {a b : Int}

@[simp] theorem nearest_zero : nearest 0 = 0 := by
  simp [nearest]

@[simp] theorem nearest_neg : nearest (-a) = -nearest a := by
  simp [nearest]

theorem nearest_natCast : nearest n = nearestNat n := by
  rcases Nat.eq_zero_or_pos n with rfl | hn
  · simp [nearestNat_of_lt]
  · simp [nearest, Int.sign_natCast_of_ne_zero hn.ne']

theorem nearest_nonneg (h : 0 ≤ a) : 0 ≤ nearest a := by
  lift a to Nat using h
  rw [nearest_natCast]
  exact Int.natCast_nonneg _

theorem nearest_mono (h : a ≤ b) : nearest a ≤ nearest b := by
  rcases Int.le_total 0 a with ha | ha
  · lift a to Nat using ha
    lift b to Nat using by omega
    simp only [nearest_natCast, Int.ofNat_le] at h ⊢
    exact nearestNat_mono h
  rcases Int.le_total b 0 with hb | hb
  · obtain ⟨m, rfl⟩ := Int.exists_eq_neg_ofNat ha
    obtain ⟨n, rfl⟩ := Int.exists_eq_neg_ofNat hb
    simp only [nearest_neg, nearest_natCast, neg_le_neg_iff, Int.ofNat_le] at h ⊢
    exact nearestNat_mono h
  · have := nearest_nonneg (a := -a) (by omega)
    rw [nearest_neg] at this
    have := nearest_nonneg hb
    omega

theorem nearest_lt_iff : nearest a < nearest b ↔ a < b ∧ nearest a ≠ nearest b := by
  constructor
  · intro h
    exact ⟨Int.lt_of_not_ge fun hba => absurd (nearest_mono hba) (by omega), h.ne⟩
  · rintro ⟨hab, hne⟩
    exact lt_of_le_of_ne (nearest_mono hab.le) hne

end TextAdventure.Number
