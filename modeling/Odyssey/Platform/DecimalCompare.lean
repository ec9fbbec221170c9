import Mathlib.Data.Nat.ModEq
import Mathlib.Tactic.Ring
import Mathlib.Tactic.Linarith
import Odyssey.Platform.Decimal

/-!
# Comparison of decimal numbers

The difference of two numbers may be inexact, but it has the right sign. When digits are dropped
from the number with the smaller exponent, the other one fills all eighteen digits and is the larger
one.
-/
namespace Odyssey.Platform

/-! ## Loops over coefficients -/

theorem toNat_scaleDown (x : UInt64) (n : Nat) : (scaleDown x n).toNat = x.toNat / 10 ^ n := by
  induction n generalizing x with
  | zero => rw [scaleDown, pow_zero, Nat.div_one]
  | succ n ih =>
    rw [scaleDown]
    split_ifs with zero
    · rw [zero]
      exact (Nat.zero_div _).symm
    · rw [ih, UInt64.toNat_div, pow_succ', ← Nat.div_div_eq_div_mul]
      rfl

/-- The loop counts on from a power of ten that does not exceed the number. -/
theorem countDigitsLoop_spec {x : UInt64} (lt : x.toNat < 10 ^ 18) (count : Nat) :
    ∀ k, 18 ≤ k + count → k ≤ 18 → (k = 0 ∨ 10 ^ (k - 1) ≤ x.toNat) →
      ∃ n : Nat, countDigitsLoop x count (UInt64.ofNat (10 ^ k)) k = n ∧ x.toNat < 10 ^ n ∧
        n ≤ 18 ∧ (n = 0 ∨ 10 ^ (n - 1) ≤ x.toNat) := by
  induction count with
  | zero =>
    intro k enough le lower
    exact ⟨k, rfl, by rwa [show k = 18 by omega], le, lower⟩
  | succ count ih =>
    intro k enough le lower
    have small : 10 ^ k ≤ 10 ^ 18 := Nat.pow_le_pow_right (by decide) le
    have toNat : (UInt64.ofNat (10 ^ k)).toNat = 10 ^ k :=
      UInt64.toNat_ofNat_of_lt' (small.trans_lt (by decide))
    rw [countDigitsLoop]
    split_ifs with more break'
    · rw [UInt64.le_iff_toNat_le, toNat] at more
      have break' := UInt64.le_iff_toNat_le.mp break'
      rw [toNat, show ((18446744073709551615 : UInt64) / 10).toNat = 1844674407370955161 from rfl]
        at break'
      omega
    · rw [UInt64.le_iff_toNat_le, toNat] at more
      have below : k < 18 := by
        by_contra h
        rw [show k = 18 by omega] at more
        omega
      have next : UInt64.ofNat (10 ^ k) * 10 = UInt64.ofNat (10 ^ (k + 1)) := by
        rw [pow_succ, UInt64.ofNat_mul]
        rfl
      rw [next]
      exact ih (k + 1) (by omega) below (.inr more)
    · rw [UInt64.le_iff_toNat_le, toNat, Nat.not_le] at more
      exact ⟨k, rfl, more, le, lower⟩

/-- A positive number of `n` digits is at least `10 ^ (n - 1)`. -/
theorem countDigits_spec {x : UInt64} (lt : x.toNat < 10 ^ 18) :
    ∃ n : Nat, countDigits x = n ∧ x.toNat < 10 ^ n ∧ n ≤ 18 ∧
      (n = 0 ∨ 10 ^ (n - 1) ≤ x.toNat) :=
  countDigitsLoop_spec lt 20 0 (by omega) (by omega) (.inl rfl)

namespace Decimal

/-! ## Aligned coefficients -/

/-- Coefficients that compare like other numbers. -/
structure SameOrder (l r : UInt64) (x y : Nat) : Prop where
  left_lt : l.toNat < 10 ^ 18
  right_lt : r.toNat < 10 ^ 18
  lt_iff : l.toNat < r.toNat ↔ x < y
  gt_iff : r.toNat < l.toNat ↔ y < x
  zero_iff : l.toNat + r.toNat = 0 ↔ x + y = 0

theorem SameOrder.symm {l r : UInt64} {x y : Nat} (h : SameOrder l r x y) : SameOrder r l y x :=
  ⟨h.right_lt, h.left_lt, h.gt_iff, h.lt_iff, by rw [Nat.add_comm, h.zero_iff, Nat.add_comm]⟩

/-- The coefficient of a number at a smaller exponent. -/
def scaled (d : Decimal) (exponent : Int) : Nat :=
  d.coefficient.toNat * 10 ^ (d.exponent - exponent).toNat

theorem toNat_coefficient_lt (d : Decimal) : d.coefficient.toNat < 10 ^ 17 := by
  have := UInt64.le_iff_toNat_le.mp d.coefficient_le
  rw [show maxCoefficient.toNat = 10 ^ 17 - 1 from rfl] at this
  omega

theorem toNat_coefficient_lt_precision (d : Decimal) : d.coefficient.toNat < 10 ^ 18 :=
  d.toNat_coefficient_lt.trans (by decide)

/-- A number with a sign. -/
def signed : Sign → Nat → Int
  | .positive, n => n
  | .negative, n => -n

theorem new_sign (sign : Sign) (exponent : Int) (coefficient : UInt64) :
    (new sign exponent coefficient).sign = sign := by
  unfold new
  split_ifs <;> rfl

theorem toNat_sub_of_le {l r : UInt64} (le : r.toNat ≤ l.toNat) :
    (l - r).toNat = l.toNat - r.toNat := by
  have := l.toNat_lt
  rw [UInt64.toNat_sub]
  omega

theorem value_eq (d : Decimal) {exponent : Int} (le : exponent ≤ d.exponent) :
    d.value = (signed d.sign (d.scaled exponent) : ℚ) * 10 ^ exponent := by
  have power : (10 : ℚ) ^ d.exponent = 10 ^ (d.exponent - exponent).toNat * 10 ^ exponent := by
    rw [← zpow_natCast, ← zpow_add₀ (by norm_num), Int.toNat_of_nonneg (by omega),
      Int.sub_add_cancel]
  rw [value, power, scaled]
  cases d.sign <;> simp only [signed] <;> push_cast <;> ring

end Decimal

end Odyssey.Platform
