import Mathlib.Algebra.GroupWithZero.Nat
import Mathlib.Algebra.Ring.Int.Defs
import TextAdventure.Value.Operator

/-! # Integer arithmetic

Sums, differences, products and negatives of integers wrap around, so they are exact where 64 bits hold
them. A quotient is an integer where it is exact and 64 bits hold it, and a remainder where the quotient
rounded toward zero has 64 bits. Elsewhere both are those of the nearest doubles, so no arithmetic on
integers fails.
-/
namespace TextAdventure

/-- Some integer of 64 bits is `z`. -/
def Fits (z : Int) : Prop :=
  -2 ^ 63 ≤ z ∧ z < 2 ^ 63

/-- The result is the integer of 64 bits that is `z` modulo `2 ^ 64`. -/
def WrapsTo (r : Except Error Value) (z : Int) : Prop :=
  ∃ n : Int64, r = .ok (.int n) ∧ n.toInt = z.bmod (2 ^ 64) ∧ (Fits z → n.toInt = z)

/-- The result is an integer exactly under a condition, then one with a property, and otherwise a given
double. -/
structure IntegerExactlyIf (r : Except Error Value) (condition : Prop) (holds : Int64 → Prop)
    (otherwise : Float) : Prop where
  iff : (∃ n, r = .ok (.int n)) ↔ condition
  of_int : ∀ n, r = .ok (.int n) → holds n
  of_not : ¬condition → r = .ok (.float otherwise)

/-- What division leaves over when its quotient is rounded toward zero. -/
structure IsRemainder (a b r : Int) : Prop where
  eq_tmod : r = a.tmod b
  natAbs_lt : r.natAbs < b.natAbs
  sign : r = 0 ∨ r.sign = a.sign
  dvd : b ∣ a - r

variable {a b : Int64}

theorem fits_toInt (n : Int64) : Fits n.toInt :=
  ⟨n.le_toInt, n.toInt_lt⟩

theorem bmod_eq_self_of_fits {z : Int} (h : Fits z) : z.bmod (2 ^ 64) = z := by
  obtain ⟨hlo, hhi⟩ := h
  apply Int.bmod_eq_of_le <;> omega

theorem wrapsTo_int {n : Int64} {z : Int} (h : n.toInt = z.bmod (2 ^ 64)) :
    WrapsTo (.ok (.int n)) z :=
  ⟨n, rfl, h, fun hz => h.trans (bmod_eq_self_of_fits hz)⟩

theorem toInt_ne_zero_iff : b.toInt ≠ 0 ↔ b ≠ 0 := by
  rw [Ne, Ne, ← Int64.toInt_inj, Int64.toInt_zero]

theorem isDivisible_iff : Value.isDivisible a b = true ↔ b ≠ 0 ∧ ¬(a = Int64.minValue ∧ b = -1) := by
  simp [Value.isDivisible, ← not_and_or]

theorem mod_eq_zero_iff_dvd : a % b = 0 ↔ b.toInt ∣ a.toInt := by
  rw [← Int64.toInt_inj, Int64.toInt_mod, Int64.toInt_zero, Int.dvd_iff_tmod_eq_zero]

theorem toInt_div_eq_tdiv (h : ¬(a = Int64.minValue ∧ b = -1)) :
    (a / b).toInt = a.toInt.tdiv b.toInt := by
  rcases not_and_or.mp h with ha | hb
  · exact Int64.toInt_div_of_ne_left a b ha
  · exact Int64.toInt_div_of_ne_right a b hb

/-- Of the exact quotients only that of the least integer by `-1` has more than 64 bits. -/
theorem fits_ediv_iff (h : b.toInt ∣ a.toInt) :
    Fits (a.toInt / b.toInt) ↔ ¬(a = Int64.minValue ∧ b = -1) := by
  constructor
  · rintro ⟨_, hhi⟩ ⟨rfl, rfl⟩
    exact absurd hhi (by decide)
  · intro hab
    rw [← Int.tdiv_eq_ediv_of_dvd h, ← toInt_div_eq_tdiv hab]
    exact fits_toInt _

theorem div_mul_cancel_of_fits (h : b.toInt ∣ a.toInt) (hfits : Fits (a.toInt / b.toInt)) :
    (a / b).toInt * b.toInt = a.toInt := by
  rw [toInt_div_eq_tdiv ((fits_ediv_iff h).mp hfits), Int.tdiv_mul_cancel h]

theorem isRemainder_tmod (a : Int) {b : Int} (hb : b ≠ 0) : IsRemainder a b (a.tmod b) where
  eq_tmod := rfl
  natAbs_lt := by
    rw [Int.natAbs_tmod]
    exact Nat.mod_lt _ (Int.natAbs_pos.mpr hb)
  sign := by
    by_cases h : b ∣ a
    · exact .inl (Int.tmod_eq_zero_of_dvd h)
    · exact .inr (by rw [Int.sign_tmod, if_neg h])
  dvd := ⟨a.tdiv b, by rw [Int.tmod_def]; omega⟩

theorem arithmetic_int (op : BinaryOp) (a b : Int64) :
    Value.arithmetic op (.int a) (.int b) =
      .ok (((Value.integerArithmetic? op a b).map Value.int).getD
        (.float (Value.floatArithmetic op (Number.ofInt64 a) (Number.ofInt64 b)))) := by
  simp only [Value.arithmetic]
  cases Value.integerArithmetic? op a b <;> rfl

theorem integerExactlyIf_arithmetic {op : BinaryOp} {condition : Prop} {holds : Int64 → Prop} {n : Int64}
    (hsome : condition → Value.integerArithmetic? op a b = some n)
    (hnone : ¬condition → Value.integerArithmetic? op a b = none) (hn : condition → holds n) :
    IntegerExactlyIf (Value.arithmetic op (.int a) (.int b)) condition holds
      (Value.floatArithmetic op (Number.ofInt64 a) (Number.ofInt64 b)) := by
  rw [arithmetic_int]
  by_cases h : condition
  · rw [hsome h]
    refine ⟨iff_of_true ⟨n, rfl⟩ h, fun m hm => ?_, fun hnot => absurd h hnot⟩
    cases hm
    exact hn h
  · rw [hnone h]
    exact ⟨iff_of_false nofun h, nofun, fun _ => rfl⟩

theorem division_int (a b : Int64) :
    IntegerExactlyIf (Value.arithmetic .div (.int a) (.int b))
      (b ≠ 0 ∧ b.toInt ∣ a.toInt ∧ Fits (a.toInt / b.toInt))
      (fun q => q.toInt * b.toInt = a.toInt ∧
        Value.arithmetic .mul (.int q) (.int b) = .ok (.int a))
      (Number.ofInt64 a / Number.ofInt64 b) := by
  have hcondition : b ≠ 0 ∧ b.toInt ∣ a.toInt ∧ Fits (a.toInt / b.toInt) ↔
      Value.isDivisible a b = true ∧ a % b = 0 := by
    rw [isDivisible_iff, mod_eq_zero_iff_dvd, and_assoc, and_comm (b := b.toInt ∣ a.toInt)]
    exact and_congr_right fun _ => and_congr_right fun hdvd => fits_ediv_iff hdvd
  apply integerExactlyIf_arithmetic (n := a / b)
  · intro h
    simp [Value.integerArithmetic?, hcondition.mp h]
  · intro h
    rw [hcondition] at h
    simpa [Value.integerArithmetic?] using h
  · rintro ⟨hb, hdvd, hfits⟩
    have hmul := div_mul_cancel_of_fits hdvd hfits
    refine ⟨hmul, ?_⟩
    have hback : a / b * b = a := by
      rw [← Int64.toInt_inj, Int64.toInt_mul, hmul, bmod_eq_self_of_fits (fits_toInt a)]
    rw [arithmetic_int, Value.integerArithmetic?, hback]
    rfl

theorem remainder_int (a b : Int64) :
    IntegerExactlyIf (Value.arithmetic .rem (.int a) (.int b))
      (b ≠ 0 ∧ ¬(a = Int64.minValue ∧ b = -1))
      (fun r => IsRemainder a.toInt b.toInt r.toInt)
      (Number.remainder (Number.ofInt64 a) (Number.ofInt64 b)) := by
  apply integerExactlyIf_arithmetic (n := a % b)
  · intro h
    simp [Value.integerArithmetic?, isDivisible_iff.mpr h]
  · intro h
    rw [← isDivisible_iff] at h
    simpa [Value.integerArithmetic?] using h
  · rintro ⟨hb, _⟩
    rw [Int64.toInt_mod]
    exact isRemainder_tmod a.toInt (toInt_ne_zero_iff.mpr hb)

/-- Arithmetic on integers never fails. Sums, differences, products and negatives are those of the integers
modulo `2 ^ 64`. A division has an integer result exactly where the quotient is an integer of 64 bits, and
that times the divisor is the dividend again. A remainder is one exactly where the quotient rounded toward
zero has 64 bits. Elsewhere they are those of the nearest doubles. -/
theorem integer_arithmetic_wraps_or_divides (a b : Int64) :
    WrapsTo (BinaryOp.add.apply (.int a) (.int b)) (a.toInt + b.toInt) ∧
    WrapsTo (BinaryOp.sub.apply (.int a) (.int b)) (a.toInt - b.toInt) ∧
    WrapsTo (BinaryOp.mul.apply (.int a) (.int b)) (a.toInt * b.toInt) ∧
    IntegerExactlyIf (BinaryOp.div.apply (.int a) (.int b))
      (b ≠ 0 ∧ b.toInt ∣ a.toInt ∧ Fits (a.toInt / b.toInt))
      (fun q => q.toInt * b.toInt = a.toInt ∧ BinaryOp.mul.apply (.int q) (.int b) = .ok (.int a))
      (Number.ofInt64 a / Number.ofInt64 b) ∧
    IntegerExactlyIf (BinaryOp.rem.apply (.int a) (.int b))
      (b ≠ 0 ∧ ¬(a = Int64.minValue ∧ b = -1))
      (fun r => IsRemainder a.toInt b.toInt r.toInt)
      (Number.remainder (Number.ofInt64 a) (Number.ofInt64 b)) ∧
    WrapsTo (UnaryOp.neg.apply (.int a)) (-a.toInt) ∧
    UnaryOp.neg.apply (.int Int64.minValue) = .ok (.int Int64.minValue) := by
  refine ⟨?_, ?_, ?_, division_int a b, remainder_int a b, ?_, rfl⟩
  · exact wrapsTo_int (Int64.toInt_add a b)
  · exact wrapsTo_int (Int64.toInt_sub a b)
  · exact wrapsTo_int (Int64.toInt_mul a b)
  · exact wrapsTo_int (Int64.toInt_neg a)

/-- The least integer has no quotient by `-1`, and what is left over is a double as well. -/
example : Value.integerArithmetic? .div Int64.minValue (-1) = none ∧
    Value.integerArithmetic? .rem Int64.minValue (-1) = none ∧
    Value.integerArithmetic? .mul Int64.minValue (-1) = some Int64.minValue := by
  decide

end TextAdventure
