import Odyssey.Platform.DecimalMultiply

/-!
# Division of decimal numbers

The digits of the quotient are found one after another, until there are about sixteen of them, and
the last one is rounded. The limit is tested after each digit that is not zero. A run of zeros
multiplies the quotient without a test, so that it can outgrow its 64 bits.
-/
namespace Odyssey.Platform

/-- The variables of the loop, and whether a product or a sum has had more than 64 bits. -/
structure Division where
  remainder : UInt64
  result : UInt64
  exponent : Int
  overflow : Bool

namespace Division

def shift (s : Division) : Division where
  remainder := s.remainder * 10
  result := s.result * 10
  exponent := s.exponent - 1
  overflow := s.overflow || decide (2 ^ 64 ≤ s.remainder.toNat * 10) ||
    decide (2 ^ 64 ≤ s.result.toNat * 10)

/-- The inner loop; twenty steps are enough, because the remainder is not zero. -/
def shiftDigits (divisor : UInt64) : Nat → Division → Division
  | 0, s => s
  | count + 1, s => if s.remainder < divisor then shiftDigits divisor count s.shift else s

def addDigit (divisor : UInt64) (s : Division) : Division where
  remainder := s.remainder % divisor
  result := s.result + s.remainder / divisor
  exponent := s.exponent
  overflow := s.overflow || decide (2 ^ 64 ≤ s.result.toNat + (s.remainder / divisor).toNat)

def nextDigit (divisor : UInt64) (s : Division) : Division :=
  addDigit divisor (shiftDigits divisor 20 s)

/-- The outer loop. There is no result if it does not end within `fuel` steps. -/
def digits (divisor : UInt64) : Nat → Division → Option Division
  | 0, _ => none
  | fuel + 1, s =>
    if s.result < maxCoefficient / 100 then
      let s := nextDigit divisor s
      if s.remainder = 0 then some s else digits divisor fuel s
    else some s

def roundUp (divisor : UInt64) (s : Division) : Division :=
  if divisor / 2 < s.remainder then
    { s with
      result := s.result + 1
      overflow := s.overflow || decide (2 ^ 64 ≤ s.result.toNat + 1) }
  else s

end Division

namespace Decimal

/-- The quotient of finite numbers, and whether it was found with an overflow. -/
def divFinite (fuel : Nat) (lhs rhs : Decimal) : Option (Decimal × Bool) :=
  if rhs.isZero then some (if lhs.isZero then nan else infinity (productSign lhs rhs), false)
  else if lhs.isZero then some (new (productSign lhs rhs) (lhs.exponent - rhs.exponent) 0, false)
  else
    (Division.digits rhs.coefficient fuel
        ⟨lhs.coefficient, 0, lhs.exponent - rhs.exponent, false⟩).map fun s =>
      let s := s.roundUp rhs.coefficient
      (new (productSign lhs rhs) s.exponent s.result, s.overflow)

/-- `operator/`. -/
def div (fuel : Nat) (lhs rhs : Decimal) : Option (Decimal × Bool) :=
  match handle lhs rhs with
  | .bothFinite => divFinite fuel lhs rhs
  | .bothInfinity => some (nan, false)
  | .eitherNaN value => some (value, false)
  | .lhsIsInfinity => some (infinity (productSign lhs rhs), false)
  | .rhsIsInfinity => some (zero (productSign lhs rhs), false)

end Decimal

namespace Division

/-! ## One digit -/

variable {divisor : UInt64} {s t : Division} {n j : Nat}

theorem remainder_shift (lt : s.remainder.toNat < 10 ^ 18) :
    s.shift.remainder.toNat = s.remainder.toNat * 10 := by
  rw [shift, UInt64.toNat_mul, show (10 : UInt64).toNat = 10 from rfl]
  exact Nat.mod_eq_of_lt (by omega)

theorem result_shift (lt : s.result.toNat * 10 < 2 ^ 64) :
    s.shift.result.toNat = s.result.toNat * 10 := by
  rw [shift, UInt64.toNat_mul, show (10 : UInt64).toNat = 10 from rfl]
  exact Nat.mod_eq_of_lt lt

theorem overflow_shift_iff (lt : s.remainder.toNat < 10 ^ 18) :
    s.shift.overflow = false ↔ s.overflow = false ∧ s.result.toNat * 10 < 2 ^ 64 := by
  simp only [shift, Bool.or_eq_false_iff, decide_eq_false_iff_not, not_le]
  have : s.remainder.toNat * 10 < 2 ^ 64 := by omega
  tauto

/-- What the inner loop does, which multiplies by ten `k` times. -/
structure Shifts (divisor : UInt64) (s t : Division) (k : Nat) : Prop where
  least : ∀ i < k, s.remainder.toNat * 10 ^ i < divisor.toNat
  enough : divisor.toNat ≤ s.remainder.toNat * 10 ^ k
  remainder : t.remainder.toNat = s.remainder.toNat * 10 ^ k
  exponent : t.exponent = s.exponent - k
  overflow : t.overflow = false ↔ s.overflow = false ∧ s.result.toNat * 10 ^ k < 2 ^ 64
  result : s.result.toNat * 10 ^ k < 2 ^ 64 → t.result.toNat = s.result.toNat * 10 ^ k

theorem Shifts.refl (le : divisor.toNat ≤ s.remainder.toNat) : Shifts divisor s s 0 where
  least i h := absurd h (Nat.not_lt_zero i)
  enough := by simpa using le
  remainder := by simp
  exponent := by simp
  overflow := by simpa using fun _ => s.result.toNat_lt
  result := by simp

theorem Shifts.step {k : Nat} (small : divisor.toNat < 10 ^ 18)
    (lt : s.remainder.toNat < divisor.toNat) (h : Shifts divisor s.shift t k) :
    Shifts divisor s t (k + 1) := by
  have remainder := remainder_shift (s := s) (by omega)
  have split (x : Nat) : x * 10 ^ (k + 1) = x * 10 * 10 ^ k := by rw [pow_succ', mul_assoc]
  have fits : s.result.toNat * 10 ^ (k + 1) < 2 ^ 64 → s.result.toNat * 10 < 2 ^ 64 := by
    intro lt
    refine lt_of_le_of_lt (Nat.mul_le_mul_left _ ?_) lt
    exact Nat.le_self_pow (Nat.succ_ne_zero k) 10
  refine ⟨?_, ?_, ?_, ?_, ?_, ?_⟩
  · intro i le
    cases i with
    | zero => simpa using lt
    | succ i =>
      have := h.least i (by omega)
      rwa [remainder, mul_assoc, ← pow_succ'] at this
  · rw [split, ← remainder]
    exact h.enough
  · rw [split, ← remainder]
    exact h.remainder
  · rw [h.exponent, shift]
    push_cast
    ring
  · rw [h.overflow, overflow_shift_iff (by omega), and_assoc]
    refine and_congr_right fun _ => ⟨fun ⟨le, h⟩ => ?_, fun h => ⟨fits h, ?_⟩⟩
    · rwa [result_shift le, ← split] at h
    · rwa [result_shift (fits h), ← split]
  · intro le
    have eq := result_shift (fits le)
    rw [split, ← eq] at le ⊢
    exact h.result le

theorem exists_shifts (small : divisor.toNat < 10 ^ 18) (count : Nat)
    (enough : divisor.toNat ≤ s.remainder.toNat * 10 ^ count) :
    ∃ k, Shifts divisor s (shiftDigits divisor count s) k := by
  induction count generalizing s with
  | zero => exact ⟨0, .refl (by simpa using enough)⟩
  | succ count ih =>
    rw [shiftDigits]
    split_ifs with lt
    · have lt := UInt64.lt_iff_toNat_lt.mp lt
      obtain ⟨k, h⟩ := @ih s.shift (by
        rw [remainder_shift (by omega), mul_assoc, ← pow_succ']
        exact enough)
      exact ⟨k + 1, h.step small lt⟩
    · exact ⟨0, .refl (UInt64.le_iff_toNat_le.mp (UInt64.not_lt.mp lt))⟩

/-! ### The place where the loop stops -/

/-- The quotient of `n` and `d` has enough digits with `j` of them behind the point, and the last
one is not zero. -/
def Stops (n d j : Nat) : Prop :=
  10 ^ 15 - 1 ≤ n * 10 ^ j / d ∧ (j = 0 ∨ n * 10 ^ j / d % 10 ≠ 0)

instance (n d j : Nat) : Decidable (Stops n d j) := inferInstanceAs (Decidable (_ ∧ _))

structure FirstStop (n d j : Nat) : Prop where
  stops : Stops n d j
  least : ∀ i < j, ¬ Stops n d i

/-- The first digits of the quotient have 64 bits, and the quotient is within one part in 10^16 of
an integer there. -/
def RoundsWell (n d : Nat) : Prop :=
  ∀ j, FirstStop n d j → n * 10 ^ j / d < 2 ^ 64 ∧
    min (n * 10 ^ j % d) (d - n * 10 ^ j % d) * 10 ^ 16 ≤ n * 10 ^ j

/-- The state after the first `j` digits behind the point, on the way to the quotient of `n`. -/
structure At (n : Nat) (divisor : UInt64) (j : Nat) (s : Division) : Prop where
  eq : s.result.toNat * divisor.toNat + s.remainder.toNat = n * 10 ^ j
  pos : 0 < s.remainder.toNat
  lt : s.remainder.toNat < 10 ^ 18
  start : s.remainder.toNat < divisor.toNat ∨ s.result.toNat = 0
  last : j = 0 ∨ s.result.toNat % 10 ≠ 0
  before : ∀ i < j, ¬ Stops n divisor.toNat i
  overflow : s.overflow = false

/-- The remainder is multiplied by ten until there is a digit. -/
theorem At.div_mod (h : At n divisor j s) (pos : 0 < divisor.toNat) (k : Nat) :
    n * 10 ^ (j + k) / divisor.toNat =
        s.result.toNat * 10 ^ k + s.remainder.toNat * 10 ^ k / divisor.toNat ∧
      n * 10 ^ (j + k) % divisor.toNat = s.remainder.toNat * 10 ^ k % divisor.toNat := by
  have split : n * 10 ^ (j + k) =
      s.remainder.toNat * 10 ^ k + divisor.toNat * (s.result.toNat * 10 ^ k) := by
    rw [pow_add, ← mul_assoc, ← h.eq]
    ring
  rw [split, Nat.add_mul_div_left _ _ pos, Nat.add_mul_mod_self_left, add_comm]
  exact ⟨rfl, rfl⟩

theorem At.quotient (h : At n divisor j s) (lt : s.remainder.toNat < divisor.toNat) :
    n * 10 ^ j / divisor.toNat = s.result.toNat ∧
      n * 10 ^ j % divisor.toNat = s.remainder.toNat := by
  simpa [Nat.div_eq_of_lt lt, Nat.mod_eq_of_lt lt] using h.div_mod (by omega) 0

/-- The last digit and a carry do not overflow if the zeros before them did not. -/
theorem add_lt_of_mul_lt {q k x : Nat} (small : q < 10 ^ 16) (lt : q * 10 ^ k < 2 ^ 64)
    (le : x ≤ 10) : q * 10 ^ k + x < 2 ^ 64 := by
  rcases Nat.lt_or_ge k 4 with few | many
  · have : q * 10 ^ k ≤ q * 10 ^ 3 :=
      Nat.mul_le_mul_left q (Nat.pow_le_pow_right (by decide) (by omega))
    omega
  · obtain ⟨m, rfl⟩ := Nat.exists_eq_add_of_le' many
    have split : q * 10 ^ (m + 4) = 10000 * (q * 10 ^ m) := by
      rw [pow_add]
      ring
    generalize q * 10 ^ (m + 4) = y at *
    omega

/-- What one pass of the outer loop does. -/
structure Passes (n : Nat) (divisor : UInt64) (j : Nat) (s t : Division) (k : Nat) : Prop where
  exponent : t.exponent = s.exponent - k
  overflow : t.overflow = false ↔ n * 10 ^ (j + k) / divisor.toNat < 2 ^ 64
  result : t.overflow = false → t.result.toNat = n * 10 ^ (j + k) / divisor.toNat
  remainder : t.overflow = false → t.remainder.toNat = n * 10 ^ (j + k) % divisor.toNat
  room : t.overflow = false → t.result.toNat + 1 < 2 ^ 64
  grows : t.overflow = false → 10 * s.result.toNat + 1 ≤ t.result.toNat
  last : j + k = 0 ∨ n * 10 ^ (j + k) / divisor.toNat % 10 ≠ 0
  before : ∀ i < j + k, ¬ Stops n divisor.toNat i

/-- The digit that a pass adds; there is none behind the point in the first pass if `k` is zero. -/
theorem At.digit (h : At n divisor j s) {k : Nat} (pos : 0 < divisor.toNat)
    (least : ∀ i < k, s.remainder.toNat * 10 ^ i < divisor.toNat)
    (enough : divisor.toNat ≤ s.remainder.toNat * 10 ^ k) :
    1 ≤ s.remainder.toNat * 10 ^ k / divisor.toNat ∧
      (k ≠ 0 ∧ s.remainder.toNat * 10 ^ k / divisor.toNat ≤ 9 ∨
        k = 0 ∧ j = 0 ∧ s.result.toNat = 0) := by
  refine ⟨(Nat.one_le_div_iff pos).mpr enough, ?_⟩
  cases k with
  | zero =>
    have := h.start
    have := h.last
    right
    omega
  | succ k =>
    refine .inl ⟨by omega, Nat.le_of_lt_succ ((Nat.div_lt_iff_lt_mul pos).mpr ?_)⟩
    have := least k (by omega)
    rw [pow_succ, ← mul_assoc]
    omega

/-- The loop does not stop within a run of zeros. -/
theorem At.not_stops (h : At n divisor j s) {k : Nat} (more : s.result.toNat < 10 ^ 15 - 1)
    (least : ∀ i < k, s.remainder.toNat * 10 ^ i < divisor.toNat) :
    ∀ i < j + k, ¬ Stops n divisor.toNat i := by
  intro i lt
  rcases Nat.lt_or_ge i j with early | late
  · exact h.before i early
  obtain ⟨i, rfl⟩ := Nat.exists_eq_add_of_le late
  have small := least i (by omega)
  rintro ⟨enough, digit⟩
  rw [(h.div_mod (by omega) i).1, Nat.div_eq_of_lt small, add_zero] at enough digit
  cases i with
  | zero =>
    rw [pow_zero, mul_one] at enough
    omega
  | succ i =>
    rw [pow_succ, ← mul_assoc] at digit
    omega

theorem exists_passes (pos : 0 < divisor.toNat) (small : divisor.toNat < 10 ^ 18)
    (h : At n divisor j s) (more : s.result.toNat < 10 ^ 15 - 1) :
    ∃ k, Passes n divisor j s (nextDigit divisor s) k := by
  obtain ⟨k, shifts⟩ := exists_shifts (s := s) small 20 (by have := h.pos; omega)
  obtain ⟨one, digit⟩ := h.digit pos shifts.least shifts.enough
  obtain ⟨div, mod⟩ := h.div_mod pos k
  generalize hu : shiftDigits divisor 20 s = u at shifts
  have quotient : (u.remainder / divisor).toNat = s.remainder.toNat * 10 ^ k / divisor.toNat := by
    rw [UInt64.toNat_div, shifts.remainder]
  have room : s.result.toNat * 10 ^ k < 2 ^ 64 →
      s.result.toNat * 10 ^ k + (s.remainder.toNat * 10 ^ k / divisor.toNat + 1) < 2 ^ 64 := by
    intro lt
    rcases digit with ⟨-, le⟩ | ⟨rfl, -, zero⟩
    · exact add_lt_of_mul_lt (by omega) lt (by omega)
    · have := Nat.div_le_self s.remainder.toNat divisor.toNat
      have := h.lt
      simp only [zero, pow_zero, mul_one]
      omega
  have overflow : (addDigit divisor u).overflow = false ↔ s.result.toNat * 10 ^ k < 2 ^ 64 := by
    simp only [addDigit, Bool.or_eq_false_iff, decide_eq_false_iff_not, not_le, quotient]
    rw [shifts.overflow]
    refine ⟨fun h => h.1.2, fun lt => ⟨⟨h.overflow, lt⟩, ?_⟩⟩
    rw [shifts.result lt]
    have := room lt
    omega
  have sum : s.result.toNat * 10 ^ k < 2 ^ 64 →
      (addDigit divisor u).result.toNat = n * 10 ^ (j + k) / divisor.toNat := by
    intro lt
    rw [addDigit, UInt64.toNat_add, quotient, shifts.result lt, div]
    exact Nat.mod_eq_of_lt (by have := room lt; omega)
  refine ⟨k, ?_⟩
  rw [nextDigit, hu]
  refine ⟨shifts.exponent, ?_, fun fits => sum (overflow.mp fits), ?_, ?_, ?_, ?_,
    h.not_stops more shifts.least⟩
  · rw [overflow, div]
    exact ⟨fun lt => by have := room lt; omega, fun lt => by omega⟩
  · intro _
    rw [addDigit, UInt64.toNat_mod, shifts.remainder, mod]
  · intro fits
    have lt := overflow.mp fits
    rw [sum lt, div]
    exact room lt
  · intro fits
    rw [sum (overflow.mp fits), div]
    rcases digit with ⟨ne, -⟩ | ⟨-, -, zero⟩
    · have : s.result.toNat * 10 ≤ s.result.toNat * 10 ^ k :=
        Nat.mul_le_mul_left _ (Nat.le_self_pow ne 10)
      omega
    · omega
  · rw [div]
    rcases digit with ⟨ne, le⟩ | ⟨rfl, rfl, -⟩
    · obtain ⟨k, rfl⟩ := Nat.exists_eq_succ_of_ne_zero ne
      rw [pow_succ, ← mul_assoc, ← mul_assoc] at *
      omega
    · exact .inl rfl

/-- A pass that leaves a remainder leads to the next digits. -/
theorem Passes.at (pos : 0 < divisor.toNat) (small : divisor.toNat < 10 ^ 18) {k : Nat}
    (h : Passes n divisor j s t k) (fits : t.overflow = false) (more : t.remainder ≠ 0) :
    At n divisor (j + k) t := by
  have remainder : t.remainder.toNat < divisor.toNat := by
    rw [h.remainder fits]
    exact Nat.mod_lt _ pos
  refine ⟨?_, ?_, by omega, .inl remainder, ?_, h.before, fits⟩
  · rw [h.result fits, h.remainder fits]
    exact Nat.div_add_mod' _ _
  · exact Nat.pos_of_ne_zero fun eq => more (UInt64.toNat_inj.mp eq)
  · rw [h.result fits]
    exact h.last

/-! ## All digits -/

theorem result_lt_iff (s : Division) :
    s.result < maxCoefficient / 100 ↔ s.result.toNat < 10 ^ 15 - 1 := UInt64.lt_iff_toNat_lt

/-- The digits when the loop is left. -/
structure Found (n : Nat) (divisor : UInt64) (exponent : Int) (j : Nat) (t : Division) : Prop where
  result : t.result.toNat = n * 10 ^ j / divisor.toNat
  remainder : t.remainder.toNat = n * 10 ^ j % divisor.toNat
  exponent_eq : t.exponent = exponent - j
  overflow : t.overflow = false
  room : t.result.toNat + 1 < 2 ^ 64
  done : t.remainder.toNat = 0 ∨ Stops n divisor.toNat j
  before : ∀ i < j, ¬ Stops n divisor.toNat i

/-- The loop stops at the first place where it can. -/
theorem Found.eq_of_firstStop {exponent : Int} {i : Nat} (found : Found n divisor exponent j t)
    (first : FirstStop n divisor.toNat i) : i = j := by
  have ge : j ≤ i := by
    by_contra lt
    exact found.before i (not_le.mp lt) first.stops
  rcases found.done with none | stops
  · -- the expansion has ended, and there are only zeros left
    by_contra ne
    obtain ⟨k, rfl⟩ := Nat.exists_eq_add_of_lt (lt_of_le_of_ne ge (Ne.symm ne))
    obtain ⟨q, eq⟩ := Nat.dvd_of_mod_eq_zero (found.remainder.symm.trans none)
    have digits : n * 10 ^ (j + k + 1) = divisor.toNat * (q * 10 ^ k * 10) := by
      rw [add_assoc, pow_add, ← mul_assoc, eq, pow_succ]
      ring
    have last := first.stops.2.resolve_left (by omega)
    rw [digits] at last
    rcases Nat.eq_zero_or_pos divisor.toNat with zero | pos
    · simp [zero] at last
    · rw [Nat.mul_div_cancel_left _ pos] at last
      omega
  · by_contra ne
    exact first.least j (by omega) stops

/-! ### Overflows are remembered -/

theorem overflow_shiftDigits (count : Nat) (h : s.overflow = true) :
    (shiftDigits divisor count s).overflow = true := by
  induction count generalizing s with
  | zero => exact h
  | succ count ih =>
    rw [shiftDigits]
    split_ifs
    · exact ih (by simp [shift, h])
    · exact h

theorem overflow_nextDigit (h : s.overflow = true) : (nextDigit divisor s).overflow = true := by
  simp [nextDigit, addDigit, overflow_shiftDigits 20 h]

theorem overflow_digits (fuel : Nat) (h : s.overflow = true)
    (found : digits divisor fuel s = some t) : t.overflow = true := by
  induction fuel generalizing s with
  | zero => cases found
  | succ fuel ih =>
    rw [digits] at found
    split_ifs at found
    · simp only at found
      split_ifs at found
      · cases found
        exact overflow_nextDigit h
      · exact ih (overflow_nextDigit h) found
    · cases found
      exact h

/-- Without an overflow, the loop finds the digits of the quotient. -/
theorem found_of_digits (pos : 0 < divisor.toNat) (small : divisor.toNat < 10 ^ 18)
    (exponent : Int) (fuel : Nat) (h : At n divisor j s)
    (digits_eq : digits divisor fuel s = some t)
    (fits : t.overflow = false) (exponent_eq : s.exponent = exponent - j)
    (room : 10 ^ 15 - 1 ≤ s.result.toNat → s.result.toNat + 1 < 2 ^ 64) :
    ∃ i, Found n divisor exponent i t := by
  induction fuel generalizing j s with
  | zero => cases digits_eq
  | succ fuel ih =>
    rw [digits] at digits_eq
    by_cases more : s.result.toNat < 10 ^ 15 - 1
    · rw [if_pos ((result_lt_iff s).mpr more)] at digits_eq
      obtain ⟨k, passes⟩ := exists_passes pos small h more
      have next : (nextDigit divisor s).exponent = exponent - (j + k : Nat) := by
        rw [passes.exponent, exponent_eq]
        push_cast
        ring
      generalize nextDigit divisor s = u at passes next digits_eq
      dsimp only at digits_eq
      by_cases last : u.remainder = 0
      · rw [if_pos last] at digits_eq
        cases digits_eq
        exact ⟨j + k, passes.result fits, passes.remainder fits, next, fits, passes.room fits,
          .inl (by rw [last]; rfl), passes.before⟩
      · rw [if_neg last] at digits_eq
        have fits' : u.overflow = false := by
          by_contra overflow
          have := overflow_digits fuel (by simpa using overflow) digits_eq
          rw [fits] at this
          cases this
        exact ih (passes.at pos small fits' last) digits_eq next fun _ => passes.room fits'
    · rw [if_neg (mt (result_lt_iff s).mp more)] at digits_eq
      cases digits_eq
      obtain ⟨result, remainder⟩ := h.quotient (h.start.resolve_right (by omega))
      exact ⟨j, result.symm, remainder.symm, exponent_eq, fits, room (by omega),
        .inr ⟨by rw [result]; omega, by rw [result]; exact h.last⟩, h.before⟩

/-- Each pass multiplies the quotient by ten at least, so that twenty passes are enough. -/
theorem exists_digits (pos : 0 < divisor.toNat) (small : divisor.toNat < 10 ^ 18)
    (short : ∀ j, FirstStop n divisor.toNat j → n * 10 ^ j / divisor.toNat < 2 ^ 64) (fuel : Nat)
    (h : At n divisor j s) (enough : 10 ^ 18 ≤ (9 * s.result.toNat + 1) * 10 ^ fuel) :
    ∃ t, digits divisor (fuel + 1) s = some t ∧ t.overflow = false := by
  induction fuel generalizing j s with
  | zero =>
    rw [digits, if_neg (mt (result_lt_iff s).mp (by omega))]
    exact ⟨s, rfl, h.overflow⟩
  | succ fuel ih =>
    rw [digits]
    by_cases more : s.result.toNat < 10 ^ 15 - 1
    · rw [if_pos ((result_lt_iff s).mpr more)]
      obtain ⟨k, passes⟩ := exists_passes pos small h more
      have fits := passes.overflow.mpr (by
        -- digits that outgrow 64 bits are enough digits
        by_contra long
        exact long (short _ ⟨⟨by omega, passes.last⟩, passes.before⟩))
      generalize nextDigit divisor s = t at passes fits
      by_cases last : t.remainder = 0
      · exact ⟨t, if_pos last, fits⟩
      · simp only [if_neg last]
        refine ih (passes.at pos small fits last) ?_
        have := passes.grows fits
        have split : (9 * s.result.toNat + 1) * 10 ^ (fuel + 1) =
            (9 * s.result.toNat + 1) * 10 * 10 ^ fuel := by rw [pow_succ', mul_assoc]
        rw [split] at enough
        exact enough.trans (Nat.mul_le_mul_right _ (by omega))
    · rw [if_neg (mt (result_lt_iff s).mp more)]
      exact ⟨s, rfl, h.overflow⟩

end Division

namespace Decimal

/-! ## The result -/

open Division

variable {a b : Decimal}

/-- The quotient is finite, has the right sign, is exact to one part in 10^16, and is found without
an overflow. -/
def DivAccurate (a b : Decimal) : Prop :=
  ∃ fuel quotient, div fuel a b = some (quotient, false) ∧ quotient.isFinite = true ∧
    quotient.sign = productSign a b ∧
    |a.value / b.value - quotient.value| ≤ |a.value / b.value| / 10 ^ 16

def QuotientInRange (a b : Decimal) : Prop :=
  10 ^ (-900 : Int) ≤ |a.value / b.value| ∧ |a.value / b.value| ≤ 10 ^ (900 : Int)

/-- What rounding to the nearest integer changes. -/
theorem abs_round_sub (q : Nat) {r d : Nat} (lt : r < d) :
    |(((if d / 2 < r then q + 1 else q : Nat)) : ℚ) - (q + r / d)| = (min r (d - r) : Nat) / d := by
  have pos : (0 : ℚ) < d := by exact_mod_cast (by omega : 0 < d)
  split_ifs with up
  · have le : (r : ℚ) / d ≤ 1 := (div_le_one pos).mpr (by exact_mod_cast lt.le)
    rw [min_eq_right (by omega), Nat.cast_sub lt.le, sub_div, div_self pos.ne']
    push_cast
    rw [abs_of_nonneg (by linarith)]
    ring
  · have nonneg : (0 : ℚ) ≤ r / d := by positivity
    rw [min_eq_left (by omega), abs_of_nonpos (by linarith)]
    ring

/-- Rounding and cutting off digits changes a number with sixteen digits, the first of which is five
at least, by one part in 10^16 at most. -/
theorem abs_sub_cut_le {x : ℚ} {c m : Nat} (cuts : Cuts c m) (near : |(c : ℚ) - x| ≤ 1 / 2)
    (enough : 5 * 10 ^ 15 ≤ x) : |x - (c / 10 ^ m : Nat) * 10 ^ m| ≤ x / 10 ^ 16 := by
  obtain ⟨lower, upper⟩ := abs_le.mp near
  by_cases none : m = 0
  · rw [none, pow_zero, pow_zero, Nat.div_one, mul_one, abs_le]
    constructor <;> linarith
  · have digits : (10 ^ 16 : ℚ) ≤ (c / 10 ^ m : Nat) := by exact_mod_cast cuts.least none
    have power : (1 : ℚ) ≤ 10 ^ m := one_le_pow₀ (by norm_num)
    have below : ((c / 10 ^ m : Nat) : ℚ) * 10 ^ m ≤ c := by
      exact_mod_cast Nat.div_mul_le_self c (10 ^ m)
    have above : (c : ℚ) + 1 ≤ ((c / 10 ^ m : Nat) + 1) * 10 ^ m := by
      exact_mod_cast Nat.lt_mul_of_div_lt (Nat.lt_succ_self _) (by positivity)
    have := mul_le_mul_of_nonneg_right digits (by linarith : (0 : ℚ) ≤ 10 ^ m)
    generalize (10 : ℚ) ^ m = p at *
    rw [abs_le]
    constructor <;> linarith

/-- A quotient that begins with a digit below five must be close to an integer. -/
theorem abs_sub_cut_le_iff {q r d m : Nat} (lt : r < d)
    (cuts : Cuts (if d / 2 < r then q + 1 else q) m) :
    |(q + r / d : ℚ) - ((if d / 2 < r then q + 1 else q) / 10 ^ m : Nat) * 10 ^ m| ≤
        (q + r / d) / 10 ^ 16 ↔
      min r (d - r) * 10 ^ 16 ≤ d * q + r := by
  have pos : (0 : ℚ) < d := by exact_mod_cast (by omega : 0 < d)
  have round := abs_round_sub q lt
  rcases Nat.lt_or_ge q (5 * 10 ^ 15) with few | many
  · -- no digit is cut off
    have none : m = 0 := cuts.unique ⟨by rw [pow_zero]; split_ifs <;> omega, by simp⟩
    rw [none, pow_zero, pow_zero, Nat.div_one, mul_one, abs_sub_comm, round, div_le_div_iff₀ pos
      (by norm_num), show (q + r / d : ℚ) * d = d * q + r by field_simp]
    exact_mod_cast Iff.rfl
  · have half : 2 * min r (d - r) ≤ d := by omega
    refine iff_of_true (abs_sub_cut_le cuts ?_ ?_) ?_
    · rw [round, div_le_div_iff₀ pos (by norm_num)]
      exact_mod_cast (by omega : min r (d - r) * 2 ≤ 1 * d)
    · have nonneg : (0 : ℚ) ≤ r / d := by positivity
      have : (5 * 10 ^ 15 : ℚ) ≤ q := by exact_mod_cast many
      linarith
    · calc min r (d - r) * 10 ^ 16 = 2 * min r (d - r) * (5 * 10 ^ 15) := by ring
        _ ≤ d * q := Nat.mul_le_mul half many
        _ ≤ d * q + r := Nat.le_add_right _ _

/-- The quotient with the digits that have been found. -/
theorem value_div {q r j : Nat} (pos : 0 < b.coefficient.toNat)
    (found : b.coefficient.toNat * q + r = a.coefficient.toNat * 10 ^ j) :
    a.value / b.value = signed (productSign a b) 1 *
      ((q + r / b.coefficient.toNat) * 10 ^ (a.exponent - b.exponent - j)) := by
  have pos : (b.coefficient.toNat : ℚ) ≠ 0 := by exact_mod_cast pos.ne'
  have found : (b.coefficient.toNat * q + r : ℚ) = a.coefficient.toNat * 10 ^ j := by
    exact_mod_cast found
  have power : (10 : ℚ) ^ (a.exponent - b.exponent - j) * 10 ^ j =
      10 ^ a.exponent / 10 ^ b.exponent := by
    rw [zpow_sub₀ (by norm_num), zpow_natCast, div_mul_cancel₀ _ (by positivity),
      zpow_sub₀ (by norm_num)]
  have exact : ((q : ℚ) + r / b.coefficient.toNat) * 10 ^ (a.exponent - b.exponent - j) =
      a.coefficient.toNat * 10 ^ a.exponent / (b.coefficient.toNat * 10 ^ b.exponent) := by
    rw [show (q : ℚ) + r / b.coefficient.toNat =
      a.coefficient.toNat * 10 ^ j / b.coefficient.toNat by rw [← found]; field_simp]
    rw [mul_div_mul_comm, ← power]
    ring
  rw [exact, value, value, productSign]
  cases a.sign <;> cases b.sign <;> simp [signed, neg_div, div_neg]

theorem abs_signed_one (sign : Sign) : |((signed sign 1 : Int) : ℚ)| = 1 := by
  cases sign <;> simp [signed]

theorem isZero_iff (finite : a.isFinite = true) : a.isZero = true ↔ a.coefficient = 0 := by
  rw [isZero, beq_iff_eq, ← not_iff_not, ← ne_eq a.coefficient, ← a.normal_iff]
  revert finite
  rw [isFinite, isSpecial]
  cases a.formatClass <;> decide

theorem roundUp_spec (divisor : UInt64) {t : Division} (fits : t.overflow = false)
    (room : t.result.toNat + 1 < 2 ^ 64) :
    (t.roundUp divisor).overflow = false ∧ (t.roundUp divisor).exponent = t.exponent ∧
      (t.roundUp divisor).result.toNat =
        if divisor.toNat / 2 < t.remainder.toNat then t.result.toNat + 1 else t.result.toNat := by
  have half : divisor / 2 < t.remainder ↔ divisor.toNat / 2 < t.remainder.toNat := by
    rw [UInt64.lt_iff_toNat_lt, UInt64.toNat_div]
    rfl
  rw [roundUp]
  by_cases up : divisor.toNat / 2 < t.remainder.toNat
  · rw [if_pos (half.mpr up), if_pos up]
    refine ⟨?_, rfl, ?_⟩
    · simp only [Bool.or_eq_false_iff, decide_eq_false_iff_not, not_le]
      exact ⟨fits, room⟩
    · rw [UInt64.toNat_add]
      exact Nat.mod_eq_of_lt room
  · rw [if_neg (mt half.mp up), if_neg up]
    exact ⟨fits, rfl, rfl⟩

/-- A number close to `x` is finite, and off from `x` by its rounding and by the digits that are cut
off. -/
theorem new_close (sign : Sign) {exponent : Int} {x : ℚ} (c : UInt64) (one : 1 ≤ x)
    (le : x ≤ 10 ^ 20) (lower : 10 ^ (-900 : Int) ≤ x * 10 ^ exponent)
    (upper : x * 10 ^ exponent ≤ 10 ^ (900 : Int)) :
    ∃ m, Cuts c.toNat m ∧ (new sign exponent c).isFinite = true ∧
      (|signed sign 1 * (x * 10 ^ exponent) - (new sign exponent c).value| ≤
          x * 10 ^ exponent / 10 ^ 16 ↔
        |x - (c.toNat / 10 ^ m : Nat) * 10 ^ m| ≤ x / 10 ^ 16) := by
  have above : exponent ≤ 900 := by
    rw [← zpow_le_zpow_iff_right₀ (by norm_num : (1 : ℚ) < 10)]
    exact le_trans (le_mul_of_one_le_left (by positivity) one) upper
  have below : -920 ≤ exponent := by
    have : (10 : ℚ) ^ (-900 : Int) ≤ 10 ^ (20 + exponent) := by
      rw [zpow_add₀ (by norm_num)]
      exact le_trans lower (mul_le_mul_of_nonneg_right (by exact_mod_cast le) (by positivity))
    have := (zpow_le_zpow_iff_right₀ (by norm_num : (1 : ℚ) < 10)).mp this
    omega
  have ge : exponentMin ≤ exponent := by
    unfold exponentMin
    omega
  have le : exponent ≤ exponentMax := by
    unfold exponentMax
    omega
  obtain ⟨m, cuts, -, fits⟩ := new_spec sign c ge le
  have few := cuts.le_three c.toNat_lt
  obtain ⟨isFinite, value⟩ := fits (by unfold exponentMax; omega)
  refine ⟨m, cuts, isFinite, ?_⟩
  have factor : signed sign 1 * (x * 10 ^ exponent) - (new sign exponent c).value =
      signed sign 1 * ((x - (c.toNat / 10 ^ m : Nat) * 10 ^ m) * 10 ^ exponent) := by
    rw [value, zpow_add₀ (by norm_num), zpow_natCast]
    generalize c.toNat / 10 ^ m = digits
    cases sign <;> simp only [signed] <;> push_cast <;> ring
  have power : (0 : ℚ) < 10 ^ exponent := by positivity
  rw [factor, abs_mul, abs_signed_one, one_mul, abs_mul, mul_div_right_comm, abs_of_pos power,
    mul_le_mul_iff_left₀ power]

/-- The digits that the loop has found give the quotient. -/
theorem accurate_of_found {t : Division} {j : Nat} (range : QuotientInRange a b)
    (pos : 0 < b.coefficient.toNat) (ne : 0 < a.coefficient.toNat)
    (found : Found a.coefficient.toNat b.coefficient (a.exponent - b.exponent) j t) :
    (t.roundUp b.coefficient).overflow = false ∧
      (new (productSign a b) (t.roundUp b.coefficient).exponent
        (t.roundUp b.coefficient).result).isFinite = true ∧
      (|a.value / b.value - (new (productSign a b) (t.roundUp b.coefficient).exponent
          (t.roundUp b.coefficient).result).value| ≤ |a.value / b.value| / 10 ^ 16 ↔
        min t.remainder.toNat (b.coefficient.toNat - t.remainder.toNat) * 10 ^ 16 ≤
          a.coefficient.toNat * 10 ^ j) := by
  obtain ⟨overflow, exponent, result⟩ := roundUp_spec b.coefficient found.overflow found.room
  have lt : t.remainder.toNat < b.coefficient.toNat := by
    rw [found.remainder]
    exact Nat.mod_lt _ pos
  have split : b.coefficient.toNat * t.result.toNat + t.remainder.toNat =
      a.coefficient.toNat * 10 ^ j := by
    rw [found.result, found.remainder]
    exact Nat.div_add_mod _ _
  have quotient := value_div pos split
  have fraction : (0 : ℚ) ≤ t.remainder.toNat / b.coefficient.toNat ∧
      (t.remainder.toNat / b.coefficient.toNat : ℚ) ≤ 1 :=
    ⟨by positivity, div_le_one_of_le₀ (by exact_mod_cast lt.le) (by positivity)⟩
  have one : (1 : ℚ) ≤ t.result.toNat := by
    refine Nat.one_le_cast.mpr (Nat.pos_of_ne_zero fun none => ?_)
    rcases found.done with zero | stops
    · rw [none, zero, mul_zero, zero_add] at split
      have : 0 < a.coefficient.toNat * 10 ^ j := by positivity
      omega
    · have := stops.1
      rw [← found.result, none] at this
      omega
  have bound : (t.result.toNat : ℚ) + 1 ≤ 10 ^ 20 := by
    have : t.result.toNat + 1 ≤ 10 ^ 20 := by
      have := t.result.toNat_lt
      omega
    exact_mod_cast this
  rw [← found.exponent_eq, ← exponent] at quotient
  have magnitude : |a.value / b.value| = (t.result.toNat +
      t.remainder.toNat / b.coefficient.toNat) * 10 ^ (t.roundUp b.coefficient).exponent := by
    rw [quotient, abs_mul, abs_signed_one, one_mul]
    exact abs_of_nonneg (by positivity)
  obtain ⟨lower, upper⟩ := range
  rw [magnitude] at lower upper ⊢
  obtain ⟨m, cuts, isFinite, close⟩ := new_close (productSign a b)
    (t.roundUp b.coefficient).result (by linarith) (by linarith) lower upper
  rw [result] at cuts close
  refine ⟨overflow, isFinite, ?_⟩
  rw [quotient, close, abs_sub_cut_le_iff lt cuts, split]

theorem coefficient_pos (finite : a.isFinite = true) (nonzero : a.isZero = false) :
    0 < a.coefficient.toNat := by
  refine Nat.pos_of_ne_zero fun eq => ?_
  rw [(isZero_iff finite).mpr (UInt64.toNat_inj.mp eq)] at nonzero
  cases nonzero

theorem div_of_ne_zero (finite : a.isFinite = true) (finite' : b.isFinite = true)
    (ne : a.isZero = false) (ne' : b.isZero = false) (fuel : Nat) :
    div fuel a b = (digits b.coefficient fuel
        ⟨a.coefficient, 0, a.exponent - b.exponent, false⟩).map fun s =>
      (new (productSign a b) (s.roundUp b.coefficient).exponent (s.roundUp b.coefficient).result,
        (s.roundUp b.coefficient).overflow) := by
  rw [div, handle, finite, finite', Bool.and_self, if_pos rfl]
  simp only [divFinite, ne, ne']
  rfl

theorem at_start (pos : 0 < a.coefficient.toNat) : At a.coefficient.toNat b.coefficient 0
    ⟨a.coefficient, 0, a.exponent - b.exponent, false⟩ :=
  ⟨by simp, pos, a.toNat_coefficient_lt_precision, .inr rfl, .inl rfl, by simp, rfl⟩

theorem QuotientInRange.ne_zero (range : QuotientInRange a b) (finite : a.isFinite = true) :
    a.isZero = false := by
  rw [← Bool.not_eq_true, isZero_iff finite]
  intro eq
  have zero : a.value = 0 := by
    rw [value, eq]
    cases a.sign <;> simp
  have := range.1
  rw [zero, zero_div, abs_zero] at this
  exact absurd (lt_of_lt_of_le (by positivity) this) (lt_irrefl (0 : ℚ))

/-- An accurate quotient has been found without an overflow and has been rounded well. -/
theorem roundsWell_of_divAccurate (finite : a.isFinite = true) (finite' : b.isFinite = true)
    (nonzero : b.isZero = false) (range : QuotientInRange a b) (h : DivAccurate a b) :
    RoundsWell a.coefficient.toNat b.coefficient.toNat := by
  have ne := range.ne_zero finite
  have pos := coefficient_pos finite ne
  have pos' := coefficient_pos finite' nonzero
  obtain ⟨fuel, quotient, eq, -, -, close⟩ := h
  rw [div_of_ne_zero finite finite' ne nonzero] at eq
  obtain ⟨t, digits, last⟩ := Option.map_eq_some_iff.mp eq
  obtain ⟨rfl, overflow⟩ := Prod.mk.inj last
  have fits : t.overflow = false := by
    rw [roundUp] at overflow
    split_ifs at overflow
    · exact (Bool.or_eq_false_iff.mp overflow).1
    · exact overflow
  obtain ⟨i, found⟩ := found_of_digits pos' b.toNat_coefficient_lt_precision
    (a.exponent - b.exponent) fuel (at_start pos) digits fits (by simp) (by simp)
  obtain ⟨-, -, accurate⟩ := accurate_of_found range pos' pos found
  intro j first
  obtain rfl := found.eq_of_firstStop first
  rw [← found.result, ← found.remainder]
  exact ⟨t.result.toNat_lt, accurate.mp close⟩

/-- Quotients are accurate if and only if the first digits that the loop finds have 64 bits and are
close enough to the quotient when they are rounded. -/
theorem divAccurate_iff (a b : Decimal) (finite : a.isFinite = true) (finite' : b.isFinite = true)
    (nonzero : b.isZero = false) (range : QuotientInRange a b) :
    DivAccurate a b ↔ RoundsWell a.coefficient.toNat b.coefficient.toNat := by
  refine ⟨roundsWell_of_divAccurate finite finite' nonzero range, fun well => ?_⟩
  have ne := range.ne_zero finite
  have pos := coefficient_pos finite ne
  have pos' := coefficient_pos finite' nonzero
  obtain ⟨t, digits, fits⟩ := exists_digits pos' b.toNat_coefficient_lt_precision
    (fun j first => (well j first).1) 18 (at_start (b := b) pos) (by simp)
  obtain ⟨i, found⟩ := found_of_digits pos' b.toNat_coefficient_lt_precision
    (a.exponent - b.exponent) 19 (at_start pos) digits fits (by simp) (by simp)
  obtain ⟨fits, isFinite, accurate⟩ := accurate_of_found range pos' pos found
  refine ⟨19, _, ?_, isFinite, new_sign _ _ _, accurate.mpr ?_⟩
  · rw [div_of_ne_zero finite finite' ne nonzero, digits, Option.map_some, fits]
  · rcases found.done with none | stops
    · rw [none, Nat.zero_min, Nat.zero_mul]
      exact Nat.zero_le _
    · rw [found.remainder]
      exact (well i ⟨stops, found.before⟩).2

/-- Two thirds are rounded up at the sixteenth digit. -/
theorem divAccurate_two_thirds : DivAccurate (new .positive 0 2) (new .negative 0 3) := by
  refine (divAccurate_iff _ _ (by decide) (by decide) (by decide)
    ⟨by decide +kernel, by decide +kernel⟩).mpr fun j first => ?_
  have stops : Stops (new .positive 0 2).coefficient.toNat (new .negative 0 3).coefficient.toNat
    16 := by decide +kernel
  have early : ∀ i < 16, ¬ Stops (new .positive 0 2).coefficient.toNat
    (new .negative 0 3).coefficient.toNat i := by decide +kernel
  obtain rfl : j = 16 := by
    by_contra ne
    rcases Nat.lt_or_gt_of_ne ne with lt | gt
    · exact early j lt first.stops
    · exact first.least 16 gt stops
  decide +kernel

/-- The sixteen digits of 1 / 7 are off by three parts in 10^16. The first fifteen digits of 3 /
31318 are followed by so many zeros that the quotient overflows. -/
theorem div_not_accurate :
    (QuotientInRange (new .positive 0 1) (new .positive 0 7) ∧
      ¬ DivAccurate (new .positive 0 1) (new .positive 0 7)) ∧
    QuotientInRange (new .positive 0 3) (new .positive 0 31318) ∧
      ¬ DivAccurate (new .positive 0 3) (new .positive 0 31318) := by
  have range : QuotientInRange (new .positive 0 1) (new .positive 0 7) :=
    ⟨by decide +kernel, by decide +kernel⟩
  have range' : QuotientInRange (new .positive 0 3) (new .positive 0 31318) :=
    ⟨by decide +kernel, by decide +kernel⟩
  refine ⟨⟨range, fun h => ?_⟩, range', fun h => ?_⟩
  · have := (roundsWell_of_divAccurate (by decide) (by decide) (by decide) range h 16
      ⟨by decide +kernel, by decide +kernel⟩).2
    revert this
    decide +kernel
  · have := (roundsWell_of_divAccurate (by decide) (by decide) (by decide) range' h 24
      ⟨by decide +kernel, by decide +kernel⟩).1
    revert this
    decide +kernel

end Decimal

end Odyssey.Platform
