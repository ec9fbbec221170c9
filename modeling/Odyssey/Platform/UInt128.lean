import Mathlib.Tactic.Ring

/-!
# 128-bit numbers

The helper class `UInt128` of decimal multiplication: the product of two 64-bit numbers by their
32-bit halves, and long division by a 32-bit number.
-/
namespace Odyssey.Platform

structure UInt128 where
  low : UInt64
  high : UInt64

namespace UInt128

def toNat (w : UInt128) : Nat := w.high.toNat * 2 ^ 64 + w.low.toNat

def highUInt32 (x : UInt64) : UInt32 := (x >>> 32).toUInt32

def lowUInt32 (x : UInt64) : UInt32 := (x &&& 0xFFFFFFFF).toUInt32

def makeUInt64 (low high : UInt32) : UInt64 := low.toUInt64 ||| high.toUInt64 <<< 32

def multiplyHigh (u v : UInt64) : UInt64 :=
  let uLow := (lowUInt32 u).toUInt64
  let uHigh := (highUInt32 u).toUInt64
  let vLow := (lowUInt32 v).toUInt64
  let vHigh := (highUInt32 v).toUInt64
  let partialProduct := uHigh * vLow + (highUInt32 (uLow * vLow)).toUInt64
  uHigh * vHigh + (highUInt32 partialProduct).toUInt64 +
    (highUInt32 (uLow * vHigh + (lowUInt32 partialProduct).toUInt64)).toUInt64

def multiply (u v : UInt64) : UInt128 := ⟨u * v, multiplyHigh u v⟩

/-- The loop of the division over the digits of the dividend, from the highest one on. -/
def divideDigits (divisor : UInt32) : UInt32 → List UInt32 → List UInt32
  | _, [] => []
  | remainder, digit :: digits =>
    let work := makeUInt64 digit remainder
    (work / divisor.toUInt64).toUInt32 ::
      divideDigits divisor (work % divisor.toUInt64).toUInt32 digits

/-- `operator/=`. -/
def divide (w : UInt128) (divisor : UInt32) : UInt128 :=
  if w.high = 0 then ⟨w.low / divisor.toUInt64, w.high⟩
  else
    match divideDigits divisor 0
        [highUInt32 w.high, lowUInt32 w.high, highUInt32 w.low, lowUInt32 w.low] with
    | [q₃, q₂, q₁, q₀] => ⟨makeUInt64 q₀ q₁, makeUInt64 q₂ q₃⟩
    | _ => w

theorem toNat_highUInt32 (x : UInt64) : (highUInt32 x).toNat = x.toNat / 2 ^ 32 := by
  have := x.toNat_lt
  rw [highUInt32, UInt64.toNat_toUInt32, UInt64.toNat_shiftRight, Nat.shiftRight_eq_div_pow,
    show (32 : UInt64).toNat % 64 = 32 from rfl]
  omega

theorem toNat_lowUInt32 (x : UInt64) : (lowUInt32 x).toNat = x.toNat % 2 ^ 32 := by
  rw [lowUInt32, UInt64.toNat_toUInt32, UInt64.toNat_and]
  change (x.toNat &&& 2 ^ 32 - 1) % 2 ^ 32 = _
  rw [Nat.and_two_pow_sub_one_eq_mod, Nat.mod_mod]

theorem toNat_makeUInt64 (low high : UInt32) :
    (makeUInt64 low high).toNat = high.toNat * 2 ^ 32 + low.toNat := by
  have := high.toNat_lt
  have shifted : (high.toUInt64 <<< 32).toNat = high.toNat * 2 ^ 32 := by
    rw [UInt64.toNat_shiftLeft, UInt32.toNat_toUInt64, Nat.shiftLeft_eq,
      show (32 : UInt64).toNat % 64 = 32 from rfl]
    omega
  rw [makeUInt64, UInt64.toNat_or, shifted, UInt32.toNat_toUInt64, Nat.or_comm, Nat.mul_comm,
    ← Nat.two_pow_add_eq_or_of_lt low.toNat_lt]

theorem mul_halves_le {a b : Nat} (ha : a < 2 ^ 32) (hb : b < 2 ^ 32) :
    a * b ≤ (2 ^ 32 - 1) * (2 ^ 32 - 1) :=
  Nat.mul_le_mul (by omega) (by omega)

theorem toNat_multiplyHigh (u v : UInt64) :
    (multiplyHigh u v).toNat = u.toNat * v.toNat / 2 ^ 64 := by
  have hu := u.toNat_lt
  have hv := v.toNat_lt
  have product : u.toNat * v.toNat = u.toNat / 2 ^ 32 * (v.toNat / 2 ^ 32) * 2 ^ 64 +
      (u.toNat / 2 ^ 32 * (v.toNat % 2 ^ 32) + u.toNat % 2 ^ 32 * (v.toNat / 2 ^ 32)) * 2 ^ 32 +
      u.toNat % 2 ^ 32 * (v.toNat % 2 ^ 32) := by
    conv_lhs => rw [← Nat.div_add_mod u.toNat (2 ^ 32), ← Nat.div_add_mod v.toNat (2 ^ 32)]
    ring
  have below : u.toNat * v.toNat < 2 ^ 64 * 2 ^ 64 := Nat.mul_lt_mul'' hu hv
  rw [product] at below ⊢
  have bounds : u.toNat / 2 ^ 32 < 2 ^ 32 ∧ v.toNat / 2 ^ 32 < 2 ^ 32 := by omega
  have high := mul_halves_le bounds.1 bounds.2
  have left := mul_halves_le bounds.1 (Nat.mod_lt v.toNat (by decide : 0 < 2 ^ 32))
  have right := mul_halves_le (Nat.mod_lt u.toNat (by decide : 0 < 2 ^ 32)) bounds.2
  have low := mul_halves_le (Nat.mod_lt u.toNat (by decide : 0 < 2 ^ 32))
    (Nat.mod_lt v.toNat (by decide : 0 < 2 ^ 32))
  simp only [multiplyHigh, UInt64.toNat_add, UInt64.toNat_mul, UInt32.toNat_toUInt64,
    toNat_highUInt32, toNat_lowUInt32]
  generalize u.toNat / 2 ^ 32 * (v.toNat / 2 ^ 32) = highProduct at *
  generalize u.toNat / 2 ^ 32 * (v.toNat % 2 ^ 32) = leftProduct at *
  generalize u.toNat % 2 ^ 32 * (v.toNat / 2 ^ 32) = rightProduct at *
  generalize u.toNat % 2 ^ 32 * (v.toNat % 2 ^ 32) = lowProduct at *
  omega

/-- The product is exact. -/
theorem toNat_multiply (u v : UInt64) : (multiply u v).toNat = u.toNat * v.toNat := by
  rw [toNat, multiply, toNat_multiplyHigh, UInt64.toNat_mul, Nat.mul_comm _ (2 ^ 64)]
  exact Nat.div_add_mod _ _

/-- The number with these digits behind a number. -/
def digitsFrom (n : Nat) (digits : List UInt32) : Nat :=
  digits.foldl (fun n digit => n * 2 ^ 32 + digit.toNat) n

/-- Long division: the quotient so far, times the divisor, with the remainder is what has been read
of the dividend. -/
theorem digitsFrom_divideDigits {divisor : UInt32} (digits : List UInt32) :
    ∀ (quotient : Nat) (remainder : UInt32), remainder.toNat < divisor.toNat →
      digitsFrom quotient (divideDigits divisor remainder digits) =
        digitsFrom (quotient * divisor.toNat + remainder.toNat) digits / divisor.toNat := by
  induction digits with
  | nil =>
    intro quotient remainder lt
    change quotient = (quotient * divisor.toNat + remainder.toNat) / divisor.toNat
    rw [Nat.mul_comm, Nat.mul_add_div (by omega), Nat.div_eq_of_lt lt, Nat.add_zero]
  | cons digit digits ih =>
    intro quotient remainder lt
    have work := toNat_makeUInt64 digit remainder
    have hd := divisor.toNat_lt
    have positive : 0 < divisor.toNat := by omega
    have digit_lt := digit.toNat_lt
    have small : (makeUInt64 digit remainder).toNat / divisor.toNat < 2 ^ 32 := by
      rw [Nat.div_lt_iff_lt_mul positive, work, Nat.mul_comm (2 ^ 32)]
      have := Nat.mul_le_mul_right (2 ^ 32) (show remainder.toNat + 1 ≤ divisor.toNat from lt)
      rw [Nat.add_mul] at this
      omega
    have rest := Nat.mod_lt (makeUInt64 digit remainder).toNat positive
    have split := Nat.div_add_mod (makeUInt64 digit remainder).toNat divisor.toNat
    have quotient_eq : (makeUInt64 digit remainder / divisor.toUInt64).toUInt32.toNat =
        (makeUInt64 digit remainder).toNat / divisor.toNat := by
      rw [UInt64.toNat_toUInt32, UInt64.toNat_div, UInt32.toNat_toUInt64, Nat.mod_eq_of_lt small]
    have remainder_eq : (makeUInt64 digit remainder % divisor.toUInt64).toUInt32.toNat =
        (makeUInt64 digit remainder).toNat % divisor.toNat := by
      rw [UInt64.toNat_toUInt32, UInt64.toNat_mod, UInt32.toNat_toUInt64,
        Nat.mod_eq_of_lt (by omega)]
    have next := ih (quotient * 2 ^ 32 + (makeUInt64 digit remainder).toNat / divisor.toNat)
      (makeUInt64 digit remainder % divisor.toUInt64).toUInt32 (by rw [remainder_eq]; exact rest)
    rw [divideDigits, digitsFrom, digitsFrom, List.foldl_cons, List.foldl_cons, quotient_eq]
    refine next.trans ?_
    rw [remainder_eq, Nat.add_mul, Nat.mul_comm (_ / _) divisor.toNat, Nat.add_assoc, split, work,
      digitsFrom]
    congr 2
    ring

/-- Division is exact. -/
theorem toNat_divide (w : UInt128) {divisor : UInt32} (positive : 0 < divisor.toNat) :
    (w.divide divisor).toNat = w.toNat / divisor.toNat := by
  unfold divide
  split_ifs with high
  · simp only [toNat, high, UInt64.toNat_zero, Nat.zero_mul, Nat.zero_add, UInt64.toNat_div,
      UInt32.toNat_toUInt64]
  · have long := digitsFrom_divideDigits
      [highUInt32 w.high, lowUInt32 w.high, highUInt32 w.low, lowUInt32 w.low] 0 0 positive
    have dividend : digitsFrom (0 * divisor.toNat + UInt32.toNat 0)
        [highUInt32 w.high, lowUInt32 w.high, highUInt32 w.low, lowUInt32 w.low] = w.toNat := by
      simp only [digitsFrom, List.foldl_cons, List.foldl_nil, toNat_highUInt32, toNat_lowUInt32,
        UInt32.toNat_zero, toNat]
      omega
    rw [dividend] at long
    obtain ⟨q₃, q₂, q₁, q₀, digits⟩ : ∃ q₃ q₂ q₁ q₀, divideDigits divisor 0
        [highUInt32 w.high, lowUInt32 w.high, highUInt32 w.low, lowUInt32 w.low] =
          [q₃, q₂, q₁, q₀] := ⟨_, _, _, _, rfl⟩
    rw [digits] at long ⊢
    rw [← long]
    simp only [digitsFrom, List.foldl_cons, List.foldl_nil, toNat, toNat_makeUInt64]
    omega

end UInt128

end Odyssey.Platform
