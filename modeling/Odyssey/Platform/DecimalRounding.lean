import Mathlib.Algebra.Order.Floor.Semifield
import Mathlib.Data.Rat.Floor
import Odyssey.Platform.DecimalCompare

/-!
# Rounding of decimal numbers

`ceiling` and `floor` look at the first digit behind the point only, and take every number with
enough digits behind the point to be different from zero. `round` needs no other digit.
-/
namespace Odyssey.Platform

namespace Decimal

def ceiling (d : Decimal) : Decimal :=
  if d.isSpecial then d
  else if 0 ≤ d.exponent then d
  else
    let numberOfDropDigits := -d.exponent
    if countDigits d.coefficient < numberOfDropDigits then
      if d.isPositive then ofInt 1 else zero .positive
    else
      let result := scaleDown d.coefficient (numberOfDropDigits - 1).toNat
      let result := if d.sign = .positive ∧ 0 < result % 10 then result + 10 else result
      new d.sign 0 (result / 10)

def floor (d : Decimal) : Decimal :=
  if d.isSpecial then d
  else if 0 ≤ d.exponent then d
  else
    let numberOfDropDigits := -d.exponent
    if countDigits d.coefficient < numberOfDropDigits then
      if d.isPositive then zero .positive else ofInt (-1)
    else
      let result := scaleDown d.coefficient (numberOfDropDigits - 1).toNat
      let result := if d.isNegative ∧ 0 < result % 10 then result + 10 else result
      new d.sign 0 (result / 10)

def round (d : Decimal) : Decimal :=
  if d.isSpecial then d
  else if 0 ≤ d.exponent then d
  else
    let numberOfDropDigits := -d.exponent
    if countDigits d.coefficient < numberOfDropDigits then zero .positive
    else
      let result := scaleDown d.coefficient (numberOfDropDigits - 1).toNat
      let result := if 5 ≤ result % 10 then result + 10 else result
      new d.sign 0 (result / 10)

/-! ## Numbers with an exponent of zero -/

theorem new_zero {sign : Sign} {c : UInt64} (le : c ≤ maxCoefficient) :
    (new sign 0 c).isFinite = true ∧ (new sign 0 c).value = signed sign c.toNat := by
  have same : normalize 0 c = (c, 0) := by
    rw [normalize, if_pos (by decide), dropDigits, if_neg (UInt64.not_lt.mpr le)]
  have large : ¬exponentMax < (normalize 0 c).2 := by
    rw [same, exponentMax]
    omega
  have small : ¬(normalize 0 c).2 < exponentMin := by
    rw [same, exponentMin]
    omega
  unfold new
  rw [dif_neg large, dif_neg small]
  constructor
  · simp only [isFinite, isSpecial]
    split_ifs <;> rfl
  · simp only [value, same, zpow_zero, mul_one]
    cases sign <;> simp [signed]

theorem zero_spec (sign : Sign) :
    (zero sign).isFinite = true ∧ (zero sign).value = 0 := by
  cases sign <;> exact ⟨rfl, by simp [zero, special, value]⟩

/-! ## The coefficient behind the point -/

/-- The number of digits behind the point. -/
def places (d : Decimal) : Nat := (-d.exponent).toNat

/-- The digits before the point. -/
def whole (d : Decimal) : Nat := d.coefficient.toNat / 10 ^ d.places

/-- The first digit behind the point. -/
def firstPlace (d : Decimal) : Nat := d.coefficient.toNat / 10 ^ (d.places - 1) % 10

variable {d : Decimal}

theorem value_eq_div (neg : d.exponent < 0) :
    d.value = (signed d.sign d.coefficient.toNat : ℚ) / 10 ^ d.places := by
  have power : (10 : ℚ) ^ d.exponent = (10 ^ d.places)⁻¹ := by
    rw [← zpow_natCast, ← zpow_neg, places, Int.toNat_of_nonneg (by omega), neg_neg]
  rw [value, power, div_eq_mul_inv]
  cases d.sign <;> simp [signed]

theorem places_pos (neg : d.exponent < 0) : d.places = d.places - 1 + 1 := by
  unfold places
  omega

theorem whole_eq (neg : d.exponent < 0) :
    d.whole = d.coefficient.toNat / 10 ^ (d.places - 1) / 10 := by
  rw [whole, places_pos neg, Nat.add_sub_cancel, pow_succ, Nat.div_div_eq_div_mul]

/-- A number with too few digits lies below one tenth. -/
theorem countDigits_lt_iff (neg : d.exponent < 0) :
    countDigits d.coefficient < -d.exponent ↔ d.coefficient.toNat < 10 ^ (d.places - 1) := by
  obtain ⟨n, count, upper, -, lower⟩ := countDigits_spec d.toNat_coefficient_lt_precision
  have positive := places_pos neg
  have places_eq : (d.places : Int) = -d.exponent := Int.toNat_of_nonneg (by omega)
  rw [count, ← places_eq, Nat.cast_lt]
  constructor
  · intro lt
    exact upper.trans_le (Nat.pow_le_pow_right (by decide) (by omega))
  · intro lt
    by_contra ge
    have more : 10 ^ (d.places - 1) ≤ 10 ^ (n - 1) := Nat.pow_le_pow_right (by decide) (by omega)
    omega

/-- What the code computes for a number that is not below one tenth, with or without a carry. -/
theorem new_scaleDown (neg : d.exponent < 0) {carry carry' : Prop} [Decidable carry]
    [Decidable carry'] (iff : carry ↔ carry') :
    let result := scaleDown d.coefficient (-d.exponent - 1).toNat
    let number := new d.sign 0 ((if carry then result + 10 else result) / 10)
    number.isFinite = true ∧
      number.value = signed d.sign (if carry' then d.whole + 1 else d.whole) := by
  intro result number
  have lt := d.toNat_coefficient_lt
  have result_eq : result.toNat = d.coefficient.toNat / 10 ^ (d.places - 1) := by
    rw [toNat_scaleDown, places]
    congr 2
    omega
  have small : result.toNat ≤ d.coefficient.toNat := by
    rw [result_eq]
    exact Nat.div_le_self _ _
  have toNat : ((if carry then result + 10 else result) / 10).toNat =
      if carry' then d.whole + 1 else d.whole := by
    rw [whole_eq neg, ← result_eq, UInt64.toNat_div, ← if_congr iff rfl rfl]
    split_ifs
    · rw [UInt64.toNat_add]
      simp only [UInt64.reduceToNat]
      omega
    · rfl
  have le : (if carry then result + 10 else result) / 10 ≤ maxCoefficient := by
    rw [UInt64.le_iff_toNat_le, toNat, whole_eq neg, ← result_eq,
      show maxCoefficient.toNat = 10 ^ 17 - 1 from rfl]
    split_ifs <;> omega
  rw [← toNat]
  exact new_zero le

theorem firstPlace_eq :
    (scaleDown d.coefficient (-d.exponent - 1).toNat % 10).toNat = d.firstPlace := by
  rw [UInt64.toNat_mod, toNat_scaleDown, firstPlace, places]
  congr 3
  omega

/-! ## What the functions return -/

/-- The code's rounding away from zero. -/
def away (d : Decimal) : Nat :=
  if d.coefficient.toNat < 10 ^ (d.places - 1) then 1
  else if 0 < d.firstPlace then d.whole + 1 else d.whole

theorem whole_of_small (neg : d.exponent < 0)
    (small : d.coefficient.toNat < 10 ^ (d.places - 1)) : d.whole = 0 := by
  rw [whole_eq neg, Nat.div_eq_of_lt small]

theorem ceiling_spec (finite : d.isFinite = true) (neg : d.exponent < 0) :
    d.ceiling.isFinite = true ∧
      d.ceiling.value = signed d.sign (if d.sign = .positive then d.away else d.whole) := by
  have notSpecial : d.isSpecial = false := by simpa [isFinite] using finite
  unfold ceiling
  simp only [notSpecial, Bool.false_eq_true, if_false, if_neg (Int.not_le.mpr neg)]
  by_cases small : countDigits d.coefficient < -d.exponent
  · rw [if_pos small]
    rw [countDigits_lt_iff neg] at small
    rw [away, if_pos small, whole_of_small neg small]
    rw [isPositive]
    cases d.sign with
    | positive =>
      exact @new_zero .positive 1 (by decide)
    | negative =>
      exact zero_spec .positive
  · rw [if_neg small]
    rw [countDigits_lt_iff neg] at small
    rw [away, if_neg small]
    have iff : (d.sign = .positive ∧ 0 < scaleDown d.coefficient (-d.exponent - 1).toNat % 10) ↔
        d.sign = .positive ∧ 0 < d.firstPlace := by
      rw [UInt64.lt_iff_toNat_lt, firstPlace_eq]
      rfl
    obtain ⟨number, value⟩ := new_scaleDown neg iff
    refine ⟨number, value.trans ?_⟩
    cases d.sign <;> simp

theorem floor_spec (finite : d.isFinite = true) (neg : d.exponent < 0) :
    d.floor.isFinite = true ∧
      d.floor.value = signed d.sign (if d.sign = .negative then d.away else d.whole) := by
  have notSpecial : d.isSpecial = false := by simpa [isFinite] using finite
  unfold floor
  simp only [notSpecial, Bool.false_eq_true, if_false, if_neg (Int.not_le.mpr neg)]
  by_cases small : countDigits d.coefficient < -d.exponent
  · rw [if_pos small]
    rw [countDigits_lt_iff neg] at small
    rw [away, if_pos small, whole_of_small neg small]
    rw [isPositive]
    cases d.sign with
    | positive =>
      exact zero_spec .positive
    | negative =>
      exact @new_zero .negative 1 (by decide)
  · rw [if_neg small]
    rw [countDigits_lt_iff neg] at small
    rw [away, if_neg small]
    have iff : (d.isNegative = true ∧ 0 < scaleDown d.coefficient (-d.exponent - 1).toNat % 10) ↔
        d.sign = .negative ∧ 0 < d.firstPlace := by
      rw [UInt64.lt_iff_toNat_lt, firstPlace_eq, isNegative, beq_iff_eq]
      rfl
    obtain ⟨number, value⟩ := new_scaleDown neg iff
    refine ⟨number, value.trans ?_⟩
    cases d.sign <;> simp

theorem round_spec (finite : d.isFinite = true) (neg : d.exponent < 0) :
    d.round.isFinite = true ∧
      d.round.value = signed d.sign (if 5 ≤ d.firstPlace then d.whole + 1 else d.whole) := by
  have notSpecial : d.isSpecial = false := by simpa [isFinite] using finite
  unfold round
  simp only [notSpecial, Bool.false_eq_true, if_false, if_neg (Int.not_le.mpr neg)]
  by_cases small : countDigits d.coefficient < -d.exponent
  · rw [if_pos small]
    rw [countDigits_lt_iff neg] at small
    rw [whole_of_small neg small, firstPlace, Nat.div_eq_of_lt small]
    have := zero_spec .positive
    cases d.sign <;> simpa [signed] using this
  · rw [if_neg small]
    refine new_scaleDown neg ?_
    rw [UInt64.le_iff_toNat_le, firstPlace_eq]
    rfl

/-! ## What they should return -/

/-- The integer nearest to a number, the one farther from zero if there are two. -/
def nearest (q : ℚ) : ℤ := if 0 ≤ q then ⌊q + 1 / 2⌋ else ⌈q - 1 / 2⌉

/-- Rounding away from zero. -/
def farther (d : Decimal) : Nat :=
  if 10 ^ d.places ∣ d.coefficient.toNat then d.whole else d.whole + 1

section Exact

variable {c p : Nat}

theorem floor_div : ⌊(c : ℚ) / p⌋ = (c / p : Nat) := by
  rw [← Int.natCast_floor_eq_floor (by positivity), Nat.floor_div_natCast, Nat.floor_natCast]

theorem ceil_div (hp : 0 < p) :
    ⌈(c : ℚ) / p⌉ = ((if p ∣ c then c / p else c / p + 1 : Nat) : Int) := by
  have p_pos : (0 : ℚ) < p := by exact_mod_cast hp
  split_ifs with divides
  · obtain ⟨q, rfl⟩ := divides
    rw [Nat.mul_div_cancel_left _ hp]
    push_cast
    rw [mul_div_cancel_left₀ _ p_pos.ne', Int.ceil_natCast]
  · have positive := Nat.pos_of_ne_zero (mt Nat.dvd_of_mod_eq_zero divides)
    have split := Nat.div_add_mod c p
    have rest := Nat.mod_lt c hp
    rw [Int.ceil_eq_iff]
    constructor
    · rw [lt_div_iff₀ p_pos]
      have : c / p * p < c := by rw [Nat.mul_comm]; omega
      push_cast
      rw [add_sub_cancel_right]
      exact_mod_cast this
    · rw [div_le_iff₀ p_pos]
      have : c ≤ (c / p + 1) * p := by rw [Nat.add_mul, Nat.mul_comm]; omega
      exact_mod_cast this

/-- Half of `10 ^ n` decides how `c / 10 ^ n` is rounded, and so does the first digit. -/
theorem floor_add_half (n : Nat) :
    ⌊(c : ℚ) / (10 ^ (n + 1) : Nat) + 1 / 2⌋ =
      ((if 5 ≤ c / 10 ^ n % 10 then c / 10 ^ (n + 1) + 1 else c / 10 ^ (n + 1) : Nat) : Int) := by
  have positive : 0 < 10 ^ n := by positivity
  have sum : (c : ℚ) / (10 ^ (n + 1) : Nat) + 1 / 2 =
      ((c + 5 * 10 ^ n : Nat) : ℚ) / (10 ^ (n + 1) : Nat) := by
    push_cast
    rw [pow_succ]
    field_simp
    ring
  rw [sum, floor_div, pow_succ, ← Nat.div_div_eq_div_mul,
    Nat.add_mul_div_right _ _ positive, ← Nat.div_div_eq_div_mul]
  congr 1
  split_ifs <;> omega

end Exact

theorem pow_places_pos (d : Decimal) : 0 < 10 ^ d.places := by positivity

theorem value_cast (neg : d.exponent < 0) :
    d.value = match d.sign with
      | .positive => (d.coefficient.toNat : ℚ) / (10 ^ d.places : Nat)
      | .negative => -((d.coefficient.toNat : ℚ) / (10 ^ d.places : Nat)) := by
  rw [value_eq_div neg]
  push_cast
  cases d.sign with
  | positive => rfl
  | negative =>
    simp only [signed]
    push_cast
    rw [neg_div]

theorem ceil_value (neg : d.exponent < 0) :
    ⌈d.value⌉ = signed d.sign (if d.sign = .positive then d.farther else d.whole) := by
  rw [value_cast neg]
  cases d.sign with
  | positive => exact ceil_div d.pow_places_pos
  | negative =>
    dsimp only
    rw [Int.ceil_neg, floor_div]
    rfl

theorem floor_value (neg : d.exponent < 0) :
    ⌊d.value⌋ = signed d.sign (if d.sign = .negative then d.farther else d.whole) := by
  rw [value_cast neg]
  cases d.sign with
  | positive => exact floor_div
  | negative =>
    dsimp only
    rw [Int.floor_neg, ceil_div d.pow_places_pos]
    rfl

theorem nearest_value (neg : d.exponent < 0) :
    nearest d.value = signed d.sign (if 5 ≤ d.firstPlace then d.whole + 1 else d.whole) := by
  have half := @floor_add_half d.coefficient.toNat (d.places - 1)
  rw [← places_pos neg] at half
  have nonneg : (0 : ℚ) ≤ (d.coefficient.toNat : ℚ) / (10 ^ d.places : Nat) := by positivity
  rw [value_cast neg, nearest]
  cases d.sign with
  | positive =>
    rw [if_pos nonneg]
    exact half
  | negative =>
    dsimp only [signed]
    by_cases zero : (d.coefficient.toNat : ℚ) / (10 ^ d.places : Nat) = 0
    · rw [zero] at half ⊢
      rw [neg_zero, if_pos le_rfl, half, firstPlace, whole]
      have : d.coefficient.toNat = 0 := by
        have := (div_eq_zero_iff.mp zero).resolve_right (by exact_mod_cast d.pow_places_pos.ne')
        exact_mod_cast this
      simp [this]
    · rw [if_neg (by rw [neg_nonneg]; exact fun le => zero (le_antisymm le nonneg)),
        ← neg_add', Int.ceil_neg, half]
      rfl

/-! ## The results compared -/

/-- The digits that `ceiling` and `floor` look at tell whether a number is an integer. -/
def FirstPlaceTells (d : Decimal) : Prop :=
  0 ≤ d.exponent ∨ d.coefficient.toNat ≠ 0 ∧ (d.coefficient.toNat < 10 ^ (d.places - 1) ∨
    10 ^ d.places ∣ d.coefficient.toNat ∨ d.firstPlace ≠ 0)

theorem away_eq_farther_iff (neg : d.exponent < 0) :
    d.away = d.farther ↔ d.FirstPlaceTells := by
  unfold away farther FirstPlaceTells
  by_cases small : d.coefficient.toNat < 10 ^ (d.places - 1)
  · rw [if_pos small, whole_of_small neg small]
    have below : d.coefficient.toNat < 10 ^ d.places :=
      small.trans_le (Nat.pow_le_pow_right (by decide) (Nat.sub_le _ _))
    have divides : 10 ^ d.places ∣ d.coefficient.toNat ↔ d.coefficient.toNat = 0 :=
      ⟨fun h => Nat.eq_zero_of_dvd_of_lt h below, fun h => h ▸ Nat.dvd_zero _⟩
    simp only [divides, small]
    split_ifs with zero <;> simp [zero, neg]
  · have nonzero : d.coefficient.toNat ≠ 0 := fun h => small (h ▸ by positivity)
    have place : 10 ^ d.places ∣ d.coefficient.toNat → d.firstPlace = 0 := by
      rw [places_pos neg, pow_succ, firstPlace]
      rintro ⟨q, eq⟩
      rw [eq, Nat.mul_assoc, Nat.mul_div_cancel_left _ (by positivity)]
      exact Nat.mul_mod_right _ _
    rw [if_neg small]
    by_cases divides : 10 ^ d.places ∣ d.coefficient.toNat
    · simp [divides, nonzero, place divides]
    · simp only [divides, if_false, small, Int.not_le.mpr neg]
      split_ifs with positive
      · simp [nonzero, positive.ne']
      · simp [Nat.eq_zero_of_not_pos positive]

/-- The rounding functions are exact. -/
structure RoundsExactly (d : Decimal) : Prop where
  ceiling : d.ceiling.isFinite = true ∧ d.ceiling.value = ⌈d.value⌉
  floor : d.floor.isFinite = true ∧ d.floor.value = ⌊d.value⌋
  round : d.round.isFinite = true ∧ d.round.value = nearest d.value

/-- An integer is returned as it is. -/
theorem roundsExactly_of_integer (finite : d.isFinite = true) (nonneg : 0 ≤ d.exponent) :
    RoundsExactly d := by
  have notSpecial : d.isSpecial = false := by simpa [isFinite] using finite
  obtain ⟨z, integer⟩ : ∃ z : Int, d.value = z := by
    refine ⟨signed d.sign (d.scaled 0), ?_⟩
    rw [value_eq d nonneg, zpow_zero, mul_one]
  refine ⟨?_, ?_, ?_⟩
  · rw [ceiling, if_neg (by simp [notSpecial]), if_pos nonneg, integer, Int.ceil_intCast]
    exact ⟨finite, rfl⟩
  · rw [floor, if_neg (by simp [notSpecial]), if_pos nonneg, integer, Int.floor_intCast]
    exact ⟨finite, rfl⟩
  · rw [round, if_neg (by simp [notSpecial]), if_pos nonneg, integer, nearest]
    refine ⟨finite, ?_⟩
    have up : ⌊(z : ℚ) + 1 / 2⌋ = z := by
      rw [Int.floor_eq_iff]
      constructor <;> linarith
    have down : ⌈(z : ℚ) - 1 / 2⌉ = z := by
      rw [Int.ceil_eq_iff]
      constructor <;> linarith
    rw [up, down, ite_self]

/-- Rounding is exact if the first digit behind the point tells all: `ceiling` fails for other
positive numbers, and `floor` for other negative ones. -/
theorem roundsExactly_iff (d : Decimal) (finite : d.isFinite = true) :
    RoundsExactly d ↔ d.FirstPlaceTells := by
  by_cases nonneg : 0 ≤ d.exponent
  · exact iff_of_true (roundsExactly_of_integer finite nonneg) (.inl nonneg)
  · have neg := Int.not_le.mp nonneg
    have up := ceiling_spec finite neg
    have down := floor_spec finite neg
    rw [← away_eq_farther_iff neg]
    constructor
    · intro h
      have ceiling := h.ceiling.2
      have floor := h.floor.2
      rw [up.2, ceil_value neg, Int.cast_inj] at ceiling
      rw [down.2, floor_value neg, Int.cast_inj] at floor
      cases sign : d.sign with
      | positive =>
        simp only [sign, signed, if_true] at ceiling
        exact_mod_cast ceiling
      | negative =>
        simp only [sign, signed, if_true] at floor
        omega
    · intro h
      rw [h] at up down
      rw [← ceil_value neg] at up
      rw [← floor_value neg] at down
      have near := round_spec finite neg
      rw [← nearest_value neg] at near
      exact ⟨up, down, near⟩

theorem roundsExactly_half : RoundsExactly (new .negative (-1) 25) :=
  (roundsExactly_iff _ (by decide +kernel)).mpr (by unfold FirstPlaceTells; decide +kernel)

/-- The ceilings of 1.01 and of a zero with one digit behind the point are taken to be one. -/
theorem ceiling_not_exact :
    (new .positive (-2) 101).ceiling = new .positive 0 1 ∧
      (new .positive (-1) 0).ceiling = ofInt 1 ∧
      ¬RoundsExactly (new .positive (-2) 101) ∧ ¬RoundsExactly (new .positive (-1) 0) := by
  refine ⟨by decide +kernel, by decide +kernel, fun h => ?_, fun h => ?_⟩
  · exact absurd h.ceiling.2 (by decide +kernel)
  · exact absurd h.ceiling.2 (by decide +kernel)

end Decimal

end Odyssey.Platform
