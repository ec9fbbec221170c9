import Mathlib.Algebra.Order.Field.Basic
import Mathlib.Data.Rat.Cast.Order

/-!
# Decimal numbers

`Decimal` is a floating point number with a coefficient of at most seventeen decimal digits,
although `Precision` is eighteen. Numbers are compared by the sign of their difference, for which
the operands are brought to one exponent: one of them is scaled up, and the other loses digits if
there is no room left.
-/
namespace Odyssey.Platform

inductive Sign where
  | positive
  | negative
  deriving DecidableEq

def invertSign : Sign → Sign
  | .negative => .positive
  | .positive => .negative

inductive FormatClass where
  | infinity
  | normal
  | nan
  | zero
  deriving DecidableEq

def exponentMax : Int := 1023

def exponentMin : Int := -1023

def precision : Int := 18

def maxCoefficient : UInt64 := 0x16345785D89FFFF

/-- The encoded data of a number. The exponent is kept in sixteen bits. -/
structure Decimal where
  coefficient : UInt64
  exponent : Int
  formatClass : FormatClass
  sign : Sign
  coefficient_le : coefficient ≤ maxCoefficient
  exponent_ge : exponentMin ≤ exponent
  exponent_le : exponent ≤ exponentMax
  normal_iff : formatClass = .normal ↔ coefficient ≠ 0
  deriving DecidableEq

/-! ## Arithmetic of coefficients -/

/-- The loop of `countDigits`; the power of ten grows in every step. -/
def countDigitsLoop (x : UInt64) : Nat → UInt64 → Int → Int
  | 0, _, numberOfDigits => numberOfDigits
  | count + 1, powerOfTen, numberOfDigits =>
    if powerOfTen ≤ x then
      if 18446744073709551615 / 10 ≤ powerOfTen then numberOfDigits + 1
      else countDigitsLoop x count (powerOfTen * 10) (numberOfDigits + 1)
    else numberOfDigits

def countDigits (x : UInt64) : Int := countDigitsLoop x 20 1 0

def scaleDown (x : UInt64) : Nat → UInt64
  | 0 => x
  | n + 1 => if x = 0 then x else scaleDown (x / 10) n

/-- The loop of `scaleUp`, over the bits of `n`. -/
def scaleUpLoop (x : UInt64) : Nat → Nat → UInt64 → UInt64 → UInt64
  | 0, _, y, _ => x * y
  | bits + 1, n, y, z =>
    let y := if n % 2 = 1 then y * z else y
    if n / 2 = 0 then x * y else scaleUpLoop x bits (n / 2) y (z * z)

/-- The number of digits is an `int`. -/
def scaleUp (x : UInt64) (n : Nat) : UInt64 := scaleUpLoop x 32 n 1 10

namespace Decimal

/-- A number without a coefficient. -/
def special (sign : Sign) (formatClass : FormatClass) (h : formatClass ≠ .normal) : Decimal where
  coefficient := 0
  exponent := 0
  formatClass := formatClass
  sign := sign
  coefficient_le := by decide
  exponent_ge := by decide
  exponent_le := by decide
  normal_iff := iff_of_false h fun ne => ne rfl

def infinity (sign : Sign) : Decimal := special sign .infinity (by decide)

def nan : Decimal := special .positive .nan (by decide)

def zero (sign : Sign) : Decimal := special sign .zero (by decide)

/-- Digits are dropped until the coefficient fits; twenty steps are enough for 64 bits. -/
def dropDigits : Nat → UInt64 × Int → UInt64 × Int
  | 0, pair => pair
  | count + 1, (coefficient, exponent) =>
    if maxCoefficient < coefficient then dropDigits count (coefficient / 10, exponent + 1)
    else (coefficient, exponent)

theorem dropDigits_le (count : Nat) (pair : UInt64 × Int)
    (small : pair.1.toNat / 10 ^ count ≤ maxCoefficient.toNat) :
    (dropDigits count pair).1 ≤ maxCoefficient := by
  induction count generalizing pair with
  | zero =>
    rw [pow_zero, Nat.div_one] at small
    exact UInt64.le_iff_toNat_le.mpr small
  | succ count ih =>
    rw [dropDigits]
    split_ifs with large
    · refine ih _ ?_
      rw [pow_succ', ← Nat.div_div_eq_div_mul] at small
      exact small
    · exact UInt64.not_lt.mp large

theorem dropDigits_twenty_le (pair : UInt64 × Int) : (dropDigits 20 pair).1 ≤ maxCoefficient := by
  refine dropDigits_le 20 pair ?_
  have := pair.1.toNat_lt
  rw [Nat.div_eq_of_lt (by omega)]
  exact Nat.zero_le _

/-- No digit is dropped from a coefficient that fits, and the last one is not dropped. -/
theorem dropDigits_eq_zero_iff (count : Nat) (pair : UInt64 × Int) :
    (dropDigits count pair).1 = 0 ↔ pair.1 = 0 := by
  induction count generalizing pair with
  | zero => exact Iff.rfl
  | succ count ih =>
    rw [dropDigits]
    split_ifs with large
    · rw [ih]
      have large' := UInt64.lt_iff_toNat_lt.mp large
      refine iff_of_false (fun eq => ?_) fun eq => ?_
      · have := congrArg UInt64.toNat eq
        rw [UInt64.toNat_div] at this
        have ten : (10 : UInt64).toNat = 10 := rfl
        have max : maxCoefficient.toNat = 10 ^ 17 - 1 := rfl
        have zero : (0 : UInt64).toNat = 0 := rfl
        rw [ten, zero] at this
        rw [max] at large'
        omega
      · rw [eq] at large
        revert large
        decide
    · exact Iff.rfl

/-- The coefficient and the exponent after digits have been dropped. -/
def normalize (exponent : Int) (coefficient : UInt64) : UInt64 × Int :=
  if exponentMin ≤ exponent ∧ exponent ≤ exponentMax then dropDigits 20 (coefficient, exponent)
  else (coefficient, exponent)

theorem normalize_of_range {exponent : Int} {coefficient : UInt64}
    (large : ¬ exponentMax < (normalize exponent coefficient).2)
    (small : ¬ (normalize exponent coefficient).2 < exponentMin) :
    normalize exponent coefficient = dropDigits 20 (coefficient, exponent) := by
  unfold normalize at *
  split_ifs at * with range
  · rfl
  · exact absurd ⟨Int.not_lt.mp small, Int.not_lt.mp large⟩ range

/-- `Decimal(sign, exponent, coefficient)`: numbers that are too large or too small become infinity
or zero. -/
def new (sign : Sign) (exponent : Int) (coefficient : UInt64) : Decimal :=
  if large : exponentMax < (normalize exponent coefficient).2 then infinity sign
  else if small : (normalize exponent coefficient).2 < exponentMin then zero sign
  else
    { coefficient := (normalize exponent coefficient).1
      exponent := (normalize exponent coefficient).2
      formatClass := if coefficient ≠ 0 then .normal else .zero
      sign := sign
      coefficient_le := by
        rw [normalize_of_range large small]
        exact dropDigits_twenty_le _
      exponent_ge := Int.not_lt.mp small
      exponent_le := Int.not_lt.mp large
      normal_iff := by
        rw [normalize_of_range large small]
        refine Iff.trans ?_ (dropDigits_eq_zero_iff 20 (coefficient, exponent)).not.symm
        split_ifs with h
        · exact iff_of_true rfl h
        · exact iff_of_false (by decide) h }

/-- `Decimal(int32_t)`. -/
def ofInt (i : Int) : Decimal :=
  new (if i < 0 then .negative else .positive) 0 (UInt64.ofNat i.natAbs)

def isSpecial (d : Decimal) : Bool := d.formatClass == .infinity || d.formatClass == .nan

def isFinite (d : Decimal) : Bool := !d.isSpecial

def isNaN (d : Decimal) : Bool := d.formatClass == .nan

def isZero (d : Decimal) : Bool := d.formatClass == .zero

def isNegative (d : Decimal) : Bool := d.sign == .negative

def isPositive (d : Decimal) : Bool := d.sign == .positive

/-! ## Subtraction and comparison -/

inductive HandleResult where
  | bothFinite
  | bothInfinity
  | eitherNaN (value : Decimal)
  | lhsIsInfinity
  | rhsIsInfinity

/-- `SpecialValueHandler::handle`. -/
def handle (lhs rhs : Decimal) : HandleResult :=
  if lhs.isFinite && rhs.isFinite then .bothFinite
  else if lhs.formatClass = .nan then .eitherNaN lhs
  else if rhs.formatClass = .nan then .eitherNaN rhs
  else if lhs.formatClass = .infinity then
    if rhs.formatClass = .infinity then .bothInfinity else .lhsIsInfinity
  else .rhsIsInfinity

structure AlignedOperands where
  lhsCoefficient : UInt64
  rhsCoefficient : UInt64
  exponent : Int

/-- The coefficients of a number with the larger exponent and of the other one, and the number of
digits that the common exponent is larger than the smaller one. -/
def align (coefficient : UInt64) (shiftAmount : Int) (other : UInt64) : UInt64 × UInt64 × Int :=
  let numberOfDigits := countDigits coefficient
  if numberOfDigits = 0 then (coefficient, other, 0)
  else
    let overflow := numberOfDigits + shiftAmount - precision
    if overflow ≤ 0 then (scaleUp coefficient shiftAmount.toNat, other, 0)
    else
      (scaleUp coefficient (shiftAmount - overflow).toNat, scaleDown other overflow.toNat, overflow)

def alignOperands (lhs rhs : Decimal) : AlignedOperands :=
  let exponent := min lhs.exponent rhs.exponent
  if rhs.exponent < lhs.exponent then
    let aligned := align lhs.coefficient (lhs.exponent - rhs.exponent) rhs.coefficient
    ⟨aligned.1, aligned.2.1, exponent + aligned.2.2⟩
  else if lhs.exponent < rhs.exponent then
    let aligned := align rhs.coefficient (rhs.exponent - lhs.exponent) lhs.coefficient
    ⟨aligned.2.1, aligned.1, exponent + aligned.2.2⟩
  else ⟨lhs.coefficient, rhs.coefficient, exponent⟩

/-- The difference of finite numbers; the coefficient is read as a signed number. -/
def subFinite (lhs rhs : Decimal) : Decimal :=
  let aligned := alignOperands lhs rhs
  let result :=
    if lhs.sign = rhs.sign then aligned.lhsCoefficient - aligned.rhsCoefficient
    else aligned.lhsCoefficient + aligned.rhsCoefficient
  if lhs.sign = .negative ∧ rhs.sign = .negative ∧ result = 0 then
    new .positive aligned.exponent 0
  else if result < 9223372036854775808 then new lhs.sign aligned.exponent result
  else new (invertSign lhs.sign) aligned.exponent (-result)

/-- `operator-`. -/
def sub (lhs rhs : Decimal) : Decimal :=
  match handle lhs rhs with
  | .bothFinite => subFinite lhs rhs
  | .bothInfinity => if lhs.sign = rhs.sign then nan else lhs
  | .eitherNaN value => value
  | .lhsIsInfinity => lhs
  | .rhsIsInfinity => infinity (invertSign rhs.sign)

def compareTo (lhs rhs : Decimal) : Decimal :=
  let result := sub lhs rhs
  match result.formatClass with
  | .infinity => if result.isNegative then ofInt (-1) else ofInt 1
  | .nan => result
  | .normal => result
  | .zero => zero .positive

/-- `operator==`. -/
def eq (lhs rhs : Decimal) : Bool := lhs == rhs || (compareTo lhs rhs).isZero

/-- `operator!=`. -/
def ne (lhs rhs : Decimal) : Bool :=
  if lhs = rhs then false
  else if (compareTo lhs rhs).isNaN then false
  else !(compareTo lhs rhs).isZero

/-- `operator<`. -/
def lt (lhs rhs : Decimal) : Bool :=
  if (compareTo lhs rhs).isNaN then false
  else !(compareTo lhs rhs).isZero && (compareTo lhs rhs).isNegative

/-- `operator<=`. -/
def le (lhs rhs : Decimal) : Bool :=
  if lhs = rhs then true
  else if (compareTo lhs rhs).isNaN then false
  else (compareTo lhs rhs).isZero || (compareTo lhs rhs).isNegative

/-- `operator>`. -/
def gt (lhs rhs : Decimal) : Bool :=
  if (compareTo lhs rhs).isNaN then false
  else !(compareTo lhs rhs).isZero && (compareTo lhs rhs).isPositive

/-- `operator>=`. -/
def ge (lhs rhs : Decimal) : Bool :=
  if lhs = rhs then true
  else if (compareTo lhs rhs).isNaN then false
  else (compareTo lhs rhs).isZero || !(compareTo lhs rhs).isNegative

/-- The exact value of a finite number. -/
def value (d : Decimal) : ℚ :=
  (match d.sign with
  | .positive => (d.coefficient.toNat : ℚ)
  | .negative => -(d.coefficient.toNat : ℚ)) * 10 ^ d.exponent

end Decimal

end Odyssey.Platform
