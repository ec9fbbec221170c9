import Mathlib.Algebra.Order.Field.Power
import Odyssey.Platform.DecimalCompare

/-!
# Coefficients with too many digits

`Decimal(sign, exponent, coefficient)` cuts off the digits behind the seventeenth one. Numbers of
eighteen digits that differ in the last one only become equal.
-/
namespace Odyssey.Platform

namespace Decimal

/-- Cutting off `m` digits of `n` leaves at most seventeen digits, and no more are cut off than
necessary. -/
structure Cuts (n m : Nat) : Prop where
  small : n / 10 ^ m < 10 ^ 17
  least : m ≠ 0 → 10 ^ 16 ≤ n / 10 ^ m

theorem Cuts.unique {n m m' : Nat} (cuts : Cuts n m) (cuts' : Cuts n m') : m = m' := by
  -- one digit more than necessary leaves a number below 10^16
  have not_lt {i j : Nat} (h : Cuts n i) (h' : Cuts n j) : ¬ i < j := by
    intro lt
    obtain ⟨k, rfl⟩ := Nat.exists_eq_add_of_lt lt
    have small := h.small
    have least := h'.least (by omega)
    have split : n / 10 ^ (i + k + 1) = n / 10 ^ i / 10 / 10 ^ k := by
      rw [Nat.div_div_eq_div_mul, Nat.div_div_eq_div_mul, ← pow_succ', ← pow_add, Nat.add_assoc]
    have := Nat.div_le_self (n / 10 ^ i / 10) (10 ^ k)
    omega
  have := not_lt cuts cuts'
  have := not_lt cuts' cuts
  omega

/-- Few digits are cut off from 64 bits. -/
theorem Cuts.le_three {n m : Nat} (cuts : Cuts n m) (lt : n < 2 ^ 64) : m ≤ 3 := by
  by_contra many
  have digits := cuts.least (by omega)
  have : n / 10 ^ m ≤ n / 10 ^ 4 :=
    Nat.div_le_div_left (Nat.pow_le_pow_right (by decide) (by omega)) (by decide)
  omega

theorem dropDigits_spec (count : Nat) (coefficient : UInt64) (exponent : Int)
    (enough : coefficient.toNat / 10 ^ count < 10 ^ 17) :
    ∃ m, Cuts coefficient.toNat m ∧
      (dropDigits count (coefficient, exponent)).1.toNat = coefficient.toNat / 10 ^ m ∧
      (dropDigits count (coefficient, exponent)).2 = exponent + m := by
  have max : maxCoefficient.toNat = 10 ^ 17 - 1 := rfl
  induction count generalizing coefficient exponent with
  | zero =>
    exact ⟨0, ⟨enough, by simp⟩, by simp [dropDigits], by simp [dropDigits]⟩
  | succ count ih =>
    rw [dropDigits]
    split_ifs with large
    · rw [UInt64.lt_iff_toNat_lt, max] at large
      have tenth : (coefficient / 10).toNat = coefficient.toNat / 10 := UInt64.toNat_div _ _
      have shift (m : Nat) :
        coefficient.toNat / 10 / 10 ^ m = coefficient.toNat / 10 ^ (m + 1) := by
        rw [Nat.div_div_eq_div_mul, pow_succ']
      obtain ⟨m, cuts, digits, exponent_eq⟩ := ih (coefficient / 10) (exponent + 1)
        (by rwa [tenth, shift])
      rw [tenth, shift] at digits
      refine ⟨m + 1, ⟨?_, fun _ => ?_⟩, digits, ?_⟩
      · rw [← shift, ← tenth]
        exact cuts.small
      · by_cases last : m = 0
        · rw [last, Nat.zero_add, pow_one]
          omega
        · rw [← shift, ← tenth]
          exact cuts.least last
      · rw [exponent_eq]
        push_cast
        ring
    · rw [UInt64.lt_iff_toNat_lt, max, Nat.not_lt] at large
      refine ⟨0, ⟨by rw [pow_zero, Nat.div_one]; omega, by simp⟩, ?_, by simp⟩
      rw [pow_zero, Nat.div_one]

theorem new_of_large {sign : Sign} {exponent : Int} {coefficient : UInt64}
    (large : exponentMax < exponent) : new sign exponent coefficient = infinity sign := by
  have same : normalize exponent coefficient = (coefficient, exponent) := by
    rw [normalize, if_neg fun h => by omega]
  rw [new, dif_pos (by rw [same]; exact large)]

theorem new_of_small {sign : Sign} {exponent : Int} {coefficient : UInt64}
    (small : exponent < exponentMin) : new sign exponent coefficient = zero sign := by
  have same : normalize exponent coefficient = (coefficient, exponent) := by
    rw [normalize, if_neg fun h => by omega]
  have notLarge : ¬exponentMax < exponent := by
    have : exponentMin ≤ exponentMax := by decide
    omega
  rw [new, dif_neg (by rw [same]; exact notLarge), dif_pos (by rw [same]; exact small)]

/-- A number whose exponent is in range is cut off, and becomes infinity if its exponent leaves the
range by that. -/
theorem new_spec (sign : Sign) {exponent : Int} (coefficient : UInt64)
    (ge : exponentMin ≤ exponent) (le : exponent ≤ exponentMax) :
    ∃ m, Cuts coefficient.toNat m ∧
      (exponentMax < exponent + m → new sign exponent coefficient = infinity sign) ∧
      (exponent + m ≤ exponentMax → (new sign exponent coefficient).isFinite = true ∧
        (new sign exponent coefficient).value =
          (signed sign (coefficient.toNat / 10 ^ m) : ℚ) * 10 ^ (exponent + m)) := by
  have enough : coefficient.toNat / 10 ^ 20 < 10 ^ 17 := by
    have := coefficient.toNat_lt
    omega
  obtain ⟨m, cuts, digits, exponent_eq⟩ := dropDigits_spec 20 coefficient exponent enough
  have range : normalize exponent coefficient = dropDigits 20 (coefficient, exponent) :=
    if_pos ⟨ge, le⟩
  refine ⟨m, cuts, fun large => ?_, fun fits => ?_⟩
  · rw [new, dif_pos (by rw [range, exponent_eq]; exact large)]
  · rw [new, dif_neg (by rw [range, exponent_eq]; omega),
      dif_neg (by rw [range, exponent_eq]; omega)]
    constructor
    · simp only [isFinite, isSpecial]
      split_ifs <;> rfl
    · simp only [value, range, exponent_eq, digits]
      cases sign <;> simp only [signed, Int.cast_neg, Int.cast_natCast]

/-! ## Numbers of eighteen digits -/

/-- What the constructor is given for a number of at most eighteen digits. -/
structure Written where
  sign : Sign
  exponent : Int
  coefficient : UInt64
  exponent_ge : exponentMin ≤ exponent
  exponent_le : exponent ≤ exponentMax
  coefficient_lt : coefficient.toNat < 10 ^ 18

/-- The first seventeen digits of a number. -/
def kept (n : Nat) : Nat := if n < 10 ^ 17 then n else n / 10 * 10

namespace Written

def decimal (x : Written) : Decimal := new x.sign x.exponent x.coefficient

def value (x : Written) : ℚ := signed x.sign x.coefficient.toNat * 10 ^ x.exponent

end Written

end Decimal

end Odyssey.Platform
