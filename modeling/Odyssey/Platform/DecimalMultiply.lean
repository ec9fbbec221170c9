import Mathlib.Algebra.Order.Field.Power
import Mathlib.Data.Int.Log
import Mathlib.Data.Rat.Floor
import Odyssey.Platform.DecimalTruncate
import Odyssey.Platform.UInt128

/-!
# Multiplication of decimal numbers

The product of the coefficients is brought down to 64 bits, and then to seventeen digits. The range
of the exponent is checked in between and at the end, so that products are lost that could be
represented with a larger or a smaller coefficient.
-/
namespace Odyssey.Platform

namespace Decimal

/-- The loop that drops digits until the product has 64 bits. -/
def scaleBack : Nat → UInt128 × Int → UInt128 × Int
  | 0, pair => pair
  | count + 1, (work, exponent) =>
    if work.high = 0 then (work, exponent) else scaleBack count (work.divide 10, exponent + 1)

def productSign (lhs rhs : Decimal) : Sign := if lhs.sign = rhs.sign then .positive else .negative

/-- Forty steps are enough for 128 bits. -/
def mulFinite (lhs rhs : Decimal) : Decimal :=
  let scaled := scaleBack 40
    (UInt128.multiply lhs.coefficient rhs.coefficient, lhs.exponent + rhs.exponent)
  new (productSign lhs rhs) scaled.2 scaled.1.low

/-- `operator*`. -/
def mul (lhs rhs : Decimal) : Decimal :=
  match handle lhs rhs with
  | .bothFinite => mulFinite lhs rhs
  | .bothInfinity => infinity (productSign lhs rhs)
  | .eitherNaN value => value
  | .lhsIsInfinity => if rhs.isZero then nan else infinity (productSign lhs rhs)
  | .rhsIsInfinity => if lhs.isZero then nan else infinity (productSign lhs rhs)

/-! ## The loop -/

/-- How many of the last digits must go for a number not to exceed `max`. -/
def digitsOver (max n : Nat) : Nat :=
  if n ≤ max then 0 else digitsOver max (n / 10) + 1
termination_by n
decreasing_by omega

theorem div_pow_digitsOver (max n : Nat) : n / 10 ^ digitsOver max n ≤ max ∧
    (digitsOver max n ≠ 0 → (max + 1) / 10 ≤ n / 10 ^ digitsOver max n) := by
  induction n using digitsOver.induct max with
  | case1 n small =>
    rw [digitsOver, if_pos small]
    exact ⟨by simpa using small, by simp⟩
  | case2 n large ih =>
    rw [digitsOver, if_neg large, pow_succ', ← Nat.div_div_eq_div_mul]
    refine ⟨ih.1, fun _ => ?_⟩
    by_cases last : digitsOver max (n / 10) = 0
    · rw [last, pow_zero, Nat.div_one]
      omega
    · exact ih.2 last

/-- The digits behind those that a number of 64 bits has. -/
def digitsOver64 (n : Nat) : Nat := digitsOver (2 ^ 64 - 1) n

/-- The digits behind the seventeenth one. -/
def digitsOver17 (n : Nat) : Nat := digitsOver maxCoefficient.toNat n

theorem div_pow_digitsOver64 (n : Nat) :
    n / 10 ^ digitsOver64 n < 2 ^ 64 ∧
      (digitsOver64 n ≠ 0 → 10 ^ 18 ≤ n / 10 ^ digitsOver64 n) := by
  obtain ⟨le, least⟩ := div_pow_digitsOver (2 ^ 64 - 1) n
  rw [digitsOver64]
  exact ⟨by omega, fun ne => le_trans (by decide) (least ne)⟩

theorem digitsOver64_of_lt {n : Nat} (lt : n < 2 ^ 64) : digitsOver64 n = 0 := by
  rw [digitsOver64, digitsOver, if_pos (by omega)]

theorem digitsOver64_of_le {n : Nat} (le : 2 ^ 64 ≤ n) :
    digitsOver64 n = digitsOver64 (n / 10) + 1 := by
  rw [digitsOver64, digitsOver, if_neg (by omega), digitsOver64]

theorem cuts_digitsOver17 (n : Nat) : Cuts n (digitsOver17 n) := by
  obtain ⟨le, least⟩ := div_pow_digitsOver maxCoefficient.toNat n
  have max : maxCoefficient.toNat = 10 ^ 17 - 1 := rfl
  rw [digitsOver17]
  exact ⟨by omega, fun ne => le_trans (by decide) (least ne)⟩

/-- Cutting off the digits over 64 bits first makes no difference. -/
theorem digitsOver17_eq {n m : Nat} (cuts : Cuts (n / 10 ^ digitsOver64 n) m) :
    digitsOver17 n = digitsOver64 n + m := by
  have split : n / 10 ^ (digitsOver64 n + m) = n / 10 ^ digitsOver64 n / 10 ^ m := by
    rw [Nat.div_div_eq_div_mul, pow_add]
  refine (cuts_digitsOver17 n).unique ⟨split ▸ cuts.small, fun _ => split ▸ ?_⟩
  by_cases last : m = 0
  · have small := cuts.small
    rw [last, pow_zero, Nat.div_one] at small
    have := (div_pow_digitsOver64 n).2 (by omega)
    omega
  · exact cuts.least last

theorem digitsOver17_bounds (n : Nat) :
    digitsOver64 n ≤ digitsOver17 n ∧ digitsOver17 n ≤ digitsOver64 n + 3 := by
  have cuts := cuts_digitsOver17 (n / 10 ^ digitsOver64 n)
  have := cuts.le_three (div_pow_digitsOver64 n).1
  have := digitsOver17_eq cuts
  omega

theorem high_eq_zero_iff (w : UInt128) : w.high = 0 ↔ w.toNat < 2 ^ 64 := by
  have low := w.low.toNat_lt
  rw [← UInt64.toNat_inj, UInt64.toNat_zero, UInt128.toNat]
  omega

theorem scaleBack_spec (count : Nat) (w : UInt128) (exponent : Int)
    (enough : w.toNat / 10 ^ count < 2 ^ 64) :
    (scaleBack count (w, exponent)).1.low.toNat = w.toNat / 10 ^ digitsOver64 w.toNat ∧
      (scaleBack count (w, exponent)).2 = exponent + digitsOver64 w.toNat := by
  have done (w : UInt128) (exponent : Int) (small : w.toNat < 2 ^ 64) :
      w.low.toNat = w.toNat / 10 ^ digitsOver64 w.toNat ∧
        exponent = exponent + digitsOver64 w.toNat := by
    rw [digitsOver64_of_lt small, pow_zero, Nat.div_one, UInt128.toNat,
      (high_eq_zero_iff w).mpr small]
    simp
  induction count generalizing w exponent with
  | zero => exact done w exponent (by simpa using enough)
  | succ count ih =>
    rw [scaleBack]
    split_ifs with high
    · exact done w exponent ((high_eq_zero_iff w).mp high)
    · have large := mt (high_eq_zero_iff w).mpr high
      have tenth : (w.divide 10).toNat = w.toNat / 10 := w.toNat_divide (by decide)
      rw [pow_succ', ← Nat.div_div_eq_div_mul, ← tenth] at enough
      obtain ⟨low, exponent_eq⟩ := ih (w.divide 10) (exponent + 1) enough
      rw [low, exponent_eq, tenth, digitsOver64_of_le (Nat.not_lt.mp large), pow_succ',
        ← Nat.div_div_eq_div_mul]
      refine ⟨rfl, ?_⟩
      push_cast
      ring

/-! ## The result -/

/-- The coefficient of the exact product. -/
def product (a b : Decimal) : Nat := a.coefficient.toNat * b.coefficient.toNat

/-- The exponent of the product when its coefficient has been brought to 64 bits. -/
def productExponent (a b : Decimal) : Int :=
  a.exponent + b.exponent + digitsOver64 (product a b)

variable {a b : Decimal}

theorem value_mul (a b : Decimal) :
    a.value * b.value =
      (signed (productSign a b) (product a b) : ℚ) * 10 ^ (a.exponent + b.exponent) := by
  rw [zpow_add₀ (by norm_num), value, value, productSign, product]
  cases a.sign <;> cases b.sign <;> simp [signed] <;> ring

theorem abs_value_mul (a b : Decimal) :
    |a.value * b.value| = (product a b : ℚ) * 10 ^ (a.exponent + b.exponent) := by
  rw [value_mul, abs_mul, abs_of_pos (a := (10 : ℚ) ^ _) (by positivity)]
  cases productSign a b <;> simp [signed]

/-- The number that is normalised at the end. -/
theorem mulFinite_eq (a b : Decimal) : ∃ coefficient : UInt64,
    coefficient.toNat = product a b / 10 ^ digitsOver64 (product a b) ∧
      mulFinite a b = new (productSign a b) (productExponent a b) coefficient := by
  have exact := UInt128.toNat_multiply a.coefficient b.coefficient
  have enough : (UInt128.multiply a.coefficient b.coefficient).toNat / 10 ^ 40 < 2 ^ 64 := by
    have lt : a.coefficient.toNat * b.coefficient.toNat < 10 ^ 17 * 10 ^ 17 :=
      Nat.mul_lt_mul'' a.toNat_coefficient_lt b.toNat_coefficient_lt
    rw [exact, Nat.div_eq_of_lt (lt.trans (by decide))]
    decide
  obtain ⟨low, exponent⟩ := scaleBack_spec 40 _ (a.exponent + b.exponent) enough
  rw [exact] at low exponent
  exact ⟨_, low, by rw [mulFinite, exponent]; rfl⟩

/-- A unit of the seventeenth significant digit. -/
noncomputable def unit17 (x : ℚ) : ℚ := 10 ^ (Int.log 10 |x| - 16)

/-- The product is finite and exact but for the digits behind the seventeenth one, or behind the
last one that the exponent leaves. -/
structure MulExact (a b : Decimal) : Prop where
  isFinite : (mul a b).isFinite = true
  truncated : ∃ (e : Int) (q : Nat), exponentMin ≤ e ∧ e ≤ exponentMax ∧ q < 10 ^ 18 ∧
    (q : ℚ) * 10 ^ e ≤ |a.value * b.value| ∧ |a.value * b.value| < (q + 1 : ℚ) * 10 ^ e ∧
    (mul a b).value = if 0 ≤ a.value * b.value then (q : ℚ) * 10 ^ e else -(q * 10 ^ e)
  accurate : 10 ^ (-1005 : Int) ≤ |a.value * b.value| →
    |a.value * b.value - (mul a b).value| < unit17 (a.value * b.value)

/-- The product is zero or in the range of finite numbers. -/
def ProductInRange (a b : Decimal) : Prop :=
  a.value * b.value = 0 ∨ 10 ^ (-1023 : Int) ≤ |a.value * b.value| ∧
    |a.value * b.value| ≤ (10 ^ 18 - 1) * 10 ^ (1023 : Int)

/-- The exponent is not too large for seventeen digits, and not too small for 64 bits unless the
product is so small that it may be lost. -/
def ExponentInRange (a b : Decimal) : Prop :=
  a.exponent + b.exponent + digitsOver17 (product a b) ≤ exponentMax ∧
    (exponentMin ≤ a.exponent + b.exponent + digitsOver64 (product a b) ∨
      |a.value * b.value| < 10 ^ (-1005 : Int))

/-- A number that is cut off loses less than a unit of the last of its seventeen digits. -/
theorem lt_unit17 {x : ℚ} {q : Nat} {e : Int} (large : 10 ^ 16 ≤ q) (le : (q : ℚ) * 10 ^ e ≤ |x|)
    (lt : |x| < (q + 1 : ℚ) * 10 ^ e) : |x| - q * 10 ^ e < unit17 x := by
  have power : (10 : ℚ) ^ (16 + e) ≤ |x| := by
    rw [zpow_add₀ (by norm_num)]
    refine le_trans (mul_le_mul_of_nonneg_right ?_ (by positivity)) le
    exact_mod_cast large
  have positive : 0 < |x| := lt_of_lt_of_le (by positivity) power
  have log : 16 + e ≤ Int.log 10 |x| := by
    rw [← Int.zpow_le_iff_le_log (by norm_num) positive]
    exact_mod_cast power
  have unit : (10 : ℚ) ^ e ≤ unit17 x := by
    unfold unit17
    exact zpow_le_zpow_right₀ (by norm_num) (by omega)
  linarith

/-- What is left of a number without its last digits. -/
theorem cut_bounds (n s : Nat) (e : Int) :
    ((n / 10 ^ s : Nat) : ℚ) * 10 ^ (e + s) ≤ n * 10 ^ e ∧
      (n : ℚ) * 10 ^ e < ((n / 10 ^ s : Nat) + 1 : ℚ) * 10 ^ (e + s) := by
  have power : (10 : ℚ) ^ (e + s) = ((10 ^ s : Nat) : ℚ) * 10 ^ e := by
    rw [zpow_add₀ (by norm_num), zpow_natCast, mul_comm]
    push_cast
    rfl
  have positive : (0 : ℚ) < 10 ^ e := by positivity
  rw [power, ← mul_assoc, ← mul_assoc, mul_le_mul_iff_left₀ positive, mul_lt_mul_iff_left₀ positive]
  constructor
  · exact_mod_cast Nat.div_mul_le_self n (10 ^ s)
  · have positive : 0 < 10 ^ s := by positivity
    exact_mod_cast (Nat.div_lt_iff_lt_mul positive).mp (Nat.lt_succ_self (n / 10 ^ s))

theorem mul_eq (finite : a.isFinite = true) (finite' : b.isFinite = true) :
    mul a b = mulFinite a b := by
  rw [mul, handle, finite, finite']
  rfl

theorem unit17_lt_self {x : ℚ} (ne : x ≠ 0) : unit17 x < |x| := by
  have positive : 0 < |x| := abs_pos.mpr ne
  have log : ((10 : Nat) : ℚ) ^ Int.log 10 |x| ≤ |x| := Int.zpow_log_le_self (by norm_num) positive
  refine lt_of_lt_of_le ?_ log
  exact zpow_lt_zpow_right₀ (by norm_num) (by omega)

/-- The zero that a product with a small exponent becomes. -/
theorem mulExact_of_zero_iff (finite : a.isFinite = true) (finite' : b.isFinite = true)
    (small : productExponent a b < exponentMin) :
    MulExact a b ↔ |a.value * b.value| < 10 ^ (-1005 : Int) := by
  obtain ⟨c, -, eq⟩ := mulFinite_eq a b
  rw [new_of_small small, ← mul_eq finite finite'] at eq
  have zero : (mul a b).value = 0 := by
    rw [eq]
    cases productSign a b <;> simp [Decimal.zero, special, value]
  constructor
  · intro h
    by_contra large
    have large := not_lt.mp large
    have ne : a.value * b.value ≠ 0 := abs_pos.mp (lt_of_lt_of_le (by positivity) large)
    have loss := h.accurate large
    rw [zero, sub_zero] at loss
    exact absurd (unit17_lt_self ne) loss.not_gt
  · intro tiny
    refine ⟨by rw [eq]; rfl, ⟨exponentMax, 0, by decide, le_rfl, by decide, ?_, ?_, ?_⟩, ?_⟩
    · rw [Nat.cast_zero, zero_mul]
      exact abs_nonneg _
    · refine tiny.trans ?_
      rw [Nat.cast_zero, zero_add, one_mul]
      exact zpow_lt_zpow_right₀ (by norm_num) (by decide)
    · rw [zero]
      simp
    · intro large
      exact absurd tiny large.not_gt

/-- Digits of the product with its sign. -/
theorem signed_productSign {digits : Nat} (e : Int) (zero : product a b = 0 → digits = 0) :
    (signed (productSign a b) digits : ℚ) * 10 ^ e =
      if 0 ≤ a.value * b.value then (digits : ℚ) * 10 ^ e else -((digits : ℚ) * 10 ^ e) := by
  have power : (0 : ℚ) < 10 ^ (a.exponent + b.exponent) := by positivity
  rw [value_mul]
  cases productSign a b with
  | positive =>
    rw [if_pos (by simp only [signed]; positivity)]
    rfl
  | negative =>
    simp only [signed, Int.cast_neg, Int.cast_natCast, neg_mul]
    split_ifs with nonneg
    · have none : (product a b : ℚ) = 0 := by
        by_contra ne
        have positive : (0 : ℚ) < product a b := lt_of_le_of_ne (by positivity) (Ne.symm ne)
        have := mul_pos positive power
        linarith
      rw [zero (by exact_mod_cast none)]
      simp
    · rfl

theorem abs_sub_of_sign {x y : ℚ} (le : y ≤ |x|) : |x - if 0 ≤ x then y else -y| = |x| - y := by
  split_ifs with sign
  · rw [abs_of_nonneg sign] at le ⊢
    rw [abs_of_nonneg (by linarith)]
  · rw [abs_of_neg (not_le.mp sign)] at le ⊢
    rw [abs_of_nonpos (by linarith)]
    ring

/-- No digit but those behind the seventeenth is lost while the exponent is in range. -/
theorem mulExact_iff_of_exponent (finite : a.isFinite = true) (finite' : b.isFinite = true)
    (ge : exponentMin ≤ productExponent a b) (le : productExponent a b ≤ exponentMax) :
    MulExact a b ↔ a.exponent + b.exponent + digitsOver17 (product a b) ≤ exponentMax := by
  obtain ⟨c, low, eq⟩ := mulFinite_eq a b
  obtain ⟨m, cuts, overflows, fits⟩ := new_spec (productSign a b) c ge le
  rw [← eq, ← mul_eq finite finite'] at overflows fits
  obtain ⟨-, above64⟩ := div_pow_digitsOver64 (product a b)
  rw [digitsOver17_eq (by rw [← low]; exact cuts), Nat.cast_add, ← add_assoc]
  rw [productExponent] at ge le overflows fits
  refine ⟨fun h => ?_, fun inRange => ?_⟩
  · by_contra above
    have := h.isFinite
    rw [overflows (not_le.mp above)] at this
    cases this
  generalize hn : digitsOver64 (product a b) = n at *
  have digits : c.toNat / 10 ^ m = product a b / 10 ^ (n + m) := by
    rw [low, Nat.div_div_eq_div_mul, pow_add]
  obtain ⟨lower, upper⟩ := cut_bounds (product a b) (n + m) (a.exponent + b.exponent)
  rw [← abs_value_mul, ← digits, Nat.cast_add, ← add_assoc] at lower upper
  have small := cuts.small
  have large : n + m ≠ 0 → 10 ^ 16 ≤ c.toNat / 10 ^ m := by
    intro ne
    by_cases last : m = 0
    · rw [last, pow_zero, Nat.div_one] at small
      have := above64 (by omega)
      omega
    · exact cuts.least last
  obtain ⟨isFinite, value⟩ := fits inRange
  rw [signed_productSign _ fun none => by rw [digits, none, Nat.zero_div]] at value
  refine ⟨isFinite, ⟨_, _, ?_, inRange, by omega, lower, upper, value⟩, fun _ => ?_⟩
  · omega
  · rw [value, abs_sub_of_sign lower]
    by_cases none : n + m = 0
    · have same : |a.value * b.value| =
          (c.toNat / 10 ^ m : Nat) * 10 ^ (a.exponent + b.exponent + n + m) := by
        rw [abs_value_mul, digits, none, pow_zero, Nat.div_one, show n = 0 by omega,
          show m = 0 by omega]
        simp
      rw [← same, sub_self]
      unfold unit17
      positivity
    · exact lt_unit17 (large none) lower upper

/-- Products are exact while the exponents of the 64-bit product and of its first seventeen digits
are in range. The 128-bit product and its quotients are exact in any case. -/
theorem mulExact_iff (a b : Decimal) (finite : a.isFinite = true) (finite' : b.isFinite = true) :
    (∀ u v, (UInt128.multiply u v).toNat = u.toNat * v.toNat) ∧
      (∀ w : UInt128, (w.divide 10).toNat = w.toNat / 10) ∧
      (MulExact a b ↔ ExponentInRange a b) := by
  refine ⟨UInt128.toNat_multiply, fun w => w.toNat_divide (by decide), ?_⟩
  rw [ExponentInRange, ← productExponent]
  have more := digitsOver17_bounds (product a b)
  have pe : productExponent a b = a.exponent + b.exponent + digitsOver64 (product a b) := rfl
  by_cases large : exponentMax < productExponent a b
  · refine iff_of_false (fun h => ?_) fun h => by omega
    obtain ⟨c, -, eq⟩ := mulFinite_eq a b
    have := h.isFinite
    rw [mul_eq finite finite', eq, new_of_large large] at this
    cases this
  · by_cases small : productExponent a b < exponentMin
    · rw [mulExact_of_zero_iff finite finite' small]
      refine ⟨fun h => ⟨?_, .inr h⟩, fun h => h.2.resolve_left (by omega)⟩
      rw [exponentMin] at small
      rw [exponentMax]
      omega
    · rw [mulExact_iff_of_exponent finite finite' (by omega) (by omega)]
      exact ⟨fun h => ⟨h, .inl (by omega)⟩, And.left⟩

theorem mulExact_small : MulExact (new .positive (-3) 25) (new .negative 2 4) := by
  have := mulExact_iff (new .positive (-3) 25) (new .negative 2 4) (by decide) (by decide)
  exact this.2.2.mpr ⟨by decide +kernel, .inl (by decide +kernel)⟩

/-- Ten to the power of 1024 is in range, with a coefficient of ten. -/
theorem mul_overflows : ProductInRange (new .positive 512 1) (new .positive 512 1) ∧
    ¬ MulExact (new .positive 512 1) (new .positive 512 1) := by
  refine ⟨.inr ⟨by decide +kernel, by decide +kernel⟩, fun h => ?_⟩
  have infinite : (mul (new .positive 512 1) (new .positive 512 1)).isFinite = false := by
    decide +kernel
  rw [h.isFinite] at infinite
  cases infinite

end Decimal

end Odyssey.Platform
