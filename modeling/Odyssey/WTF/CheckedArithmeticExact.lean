import Odyssey.WTF.CheckedArithmetic

/-!
# Where checked arithmetic is exact

For every instance each operation is exact at all operands but those of `Inexact`.
-/
namespace Odyssey.WTF.CheckedArithmetic

variable {l r k : Width} {lhs rhs result n : Int}

/-! ## Ranges -/

theorem intMax_mono {a b : Nat} (h : a ≤ b) : intMax a ≤ intMax b := by
  have hpow : (2 : Int) ^ (a - 1) ≤ 2 ^ (b - 1) :=
    pow_le_pow_right₀ (by decide) (Nat.sub_le_sub_right h 1)
  rw [intMax, intMax]
  omega

theorem isInt_iff (bits : Nat) (n : Int) :
    IsInt bits n ↔ -intMax bits - 1 ≤ n ∧ n ≤ intMax bits := by
  rw [IsInt, intMin_eq]

theorem intMax_lt_of_lt {a b : Width} (h : a.bits < b.bits) : intMax a.bits < intMax b.bits := by
  cases a <;> cases b <;> revert h <;> decide

theorem isInt_mono {a b : Nat} (h : a ≤ b) (hn : IsInt a n) : IsInt b n := by
  have hmax := intMax_mono h
  rw [isInt_iff] at hn ⊢
  omega

theorem inType_of_isInt {bits : Nat} (h : IsInt bits n) : inType bits n = some n := if_pos h

theorem toSigned_of_isInt (h : IsInt k.bits n) : toSigned k n = n := by
  obtain ⟨hmin, hmax⟩ := h
  cases k <;>
  · rw [toSigned, Int.bmod_def]
    simp only [intMin, intMax, Width.bits] at *
    omega

theorem le_common_left (a b : Width) : a.bits ≤ common a b := by
  rw [common]
  omega

theorem le_common_right (a b : Width) : b.bits ≤ common a b := by
  rw [common]
  omega

/-- Moving zero from one number of a type towards another stays in the type. -/
theorem isInt_intMax_sub (h : IsInt r.bits rhs) (hrhs : 0 ≤ rhs) :
    IsInt (common k r) (intMax k.bits - rhs) := by
  have hk := intMax_mono (le_common_left k r)
  have hr := intMax_mono (le_common_right k r)
  have hpos := intMax_nonneg k.bits
  rw [isInt_iff] at h ⊢
  omega

theorem isInt_intMax_add (h : IsInt r.bits rhs) (hrhs : rhs < 0) :
    IsInt (common k r) (intMax k.bits + rhs) := by
  have hk := intMax_mono (le_common_left k r)
  have hr := intMax_mono (le_common_right k r)
  have hpos := intMax_nonneg k.bits
  rw [isInt_iff] at h ⊢
  omega

/-! ## Signed operands -/

namespace Signed

/-- The result is no wider than the type the operands are computed in. -/
theorem store_of_isInt (hk : k.bits ≤ common l r) (h : IsInt k.bits n) :
    store l r k n = some (true, n) := by
  rw [store, inType_of_isInt (isInt_mono hk h), Option.map_some, toSigned_of_isInt h]

theorem store_of_common (h : IsInt (common l r) n) :
    store l r k n = some (true, toSigned k n) := by
  rw [store, inType_of_isInt h, Option.map_some]

theorem exact_of_isInt (h : IsInt k.bits n) : exact (.signed k) n result = some (true, n) := by
  rw [exact, if_pos (show (IntType.signed k).Has n from h)]

theorem exact_of_not_isInt (h : ¬IsInt k.bits n) :
    exact (.signed k) n result = some (false, result) := by
  rw [exact, if_neg (show ¬(IntType.signed k).Has n from h)]

/-- What is stored unchecked is exact where the type has it. -/
theorem store_eq_exact_iff (hk : k.bits ≤ common l r) (h : IsInt (common l r) n) :
    store l r k n = exact (.signed k) n result ↔ IsInt k.bits n := by
  by_cases hn : IsInt k.bits n
  · simp [store_of_isInt hk hn, exact_of_isInt hn, hn]
  · simp [store_of_common h, exact_of_not_isInt hn, hn]

/-- A test that refuses just the values that the type lacks is exact. -/
theorem refuse_or_store {refuse : Prop} [Decidable refuse] (hk : k.bits ≤ common l r)
    (h : refuse ↔ ¬IsInt k.bits n) :
    (if refuse then some (false, result) else store l r k n) = exact (.signed k) n result := by
  by_cases hn : IsInt k.bits n
  · rw [if_neg (fun hrefuse => h.1 hrefuse hn), store_of_isInt hk hn, exact_of_isInt hn]
  · rw [if_pos (h.2 hn), exact_of_not_isInt hn]

section
variable (hl : IsInt l.bits lhs) (hr : IsInt r.bits rhs) (hlk : l.bits ≤ k.bits)
  (hk : k.bits ≤ common l r)

include hl hr hlk hk in
theorem add_of_signsMatch (hsigns : signsMatch lhs rhs) :
    add l r k lhs rhs result = exact (.signed k) (lhs + rhs) result := by
  have hsame := signsMatch_iff.1 hsigns
  have hpos := intMax_nonneg k.bits
  rw [add, if_pos hsigns]
  by_cases hlhs : 0 ≤ lhs
  · rw [if_pos hlhs, inType_of_isInt (isInt_intMax_sub hr (hsame.1 hlhs))]
    refine refuse_or_store hk ?_
    rw [isInt_iff]
    omega
  · have hmin := intMin_eq k.bits
    have hmax := intMax_mono hlk
    rw [isInt_iff] at hl
    have hdifference : IsInt k.bits (lhs - intMin k.bits) := by
      rw [isInt_iff]
      omega
    have hnegated : IsInt k.bits (-(lhs - intMin k.bits)) := by
      rw [isInt_iff]
      omega
    rw [if_neg hlhs, inType_of_isInt (isInt_mono (le_common_right l k) hdifference)]
    simp only [Option.bind_eq_bind, Option.bind_some, toSigned_of_isInt hdifference]
    rw [inType_of_isInt (isInt_mono (le_common_left k k) hnegated), Option.bind_some]
    refine refuse_or_store hk ?_
    rw [isInt_iff]
    omega

include hl hr hlk hk in
theorem add_eq_exact_iff :
    add l r k lhs rhs result = exact (.signed k) (lhs + rhs) result ↔
      ¬Inexact (.signed l r k) .add lhs rhs := by
  by_cases hsigns : signsMatch lhs rhs
  · simp [Inexact, hsigns, add_of_signsMatch hl hr hlk hk hsigns]
  · have hcommon : IsInt (common l r) (lhs + rhs) := by
      have hl' := isInt_mono (le_common_left l r) hl
      have hr' := isInt_mono (le_common_right l r) hr
      rw [signsMatch_iff] at hsigns
      rw [isInt_iff] at hl' hr' ⊢
      omega
    rw [add, if_neg hsigns, store_eq_exact_iff hk hcommon]
    simp [Inexact, hsigns]

include hr hk in
theorem sub_of_nonneg (hlhs : 0 ≤ lhs) (hrhs : rhs < 0) :
    sub l r k lhs rhs result = exact (.signed k) (lhs - rhs) result := by
  have hsigns : signsMatch lhs rhs = false := by
    rw [Bool.eq_false_iff, Ne, signsMatch_iff]
    omega
  have hpos := intMax_nonneg k.bits
  rw [sub, hsigns, Bool.not_false, if_pos rfl, if_pos hlhs,
    inType_of_isInt (isInt_intMax_add hr hrhs)]
  refine refuse_or_store hk ?_
  rw [isInt_iff]
  omega

include hl hk in
/-- A negative number less a nonnegative one is compared with the least number plus one. -/
theorem sub_of_neg (hlhs : lhs < 0) (hrhs : 0 ≤ rhs) :
    sub l r k lhs rhs result =
      if lhs - rhs = intMin k.bits then some (false, result)
      else exact (.signed k) (lhs - rhs) result := by
  have hsigns : signsMatch lhs rhs = false := by
    rw [Bool.eq_false_iff, Ne, signsMatch_iff]
    omega
  have hmin := intMin_eq k.bits
  have hpos := intMax_nonneg k.bits
  rw [sub, hsigns, Bool.not_false, if_pos rfl, if_neg (by omega),
    inType_of_isInt (isInt_intMax_add hl hlhs)]
  by_cases hleast : lhs - rhs = intMin k.bits
  · rw [if_pos hleast]
    exact if_pos (by omega)
  · rw [if_neg hleast]
    refine refuse_or_store hk ?_
    rw [isInt_iff]
    omega

include hl hr hk in
theorem sub_eq_exact_iff :
    sub l r k lhs rhs result = exact (.signed k) (lhs - rhs) result ↔
      ¬Inexact (.signed l r k) .sub lhs rhs := by
  by_cases hsigns : signsMatch lhs rhs
  · have hsame := signsMatch_iff.1 hsigns
    have hcommon : IsInt (common l r) (lhs - rhs) := by
      have hl' := isInt_mono (le_common_left l r) hl
      have hr' := isInt_mono (le_common_right l r) hr
      rw [isInt_iff] at hl' hr' ⊢
      omega
    rw [sub, hsigns, Bool.not_true, if_neg Bool.false_ne_true, store_eq_exact_iff hk hcommon]
    simp only [Inexact, hsigns, true_and, not_or, not_not, iff_self_and]
    omega
  · have hinexact : Inexact (.signed l r k) .sub lhs rhs ↔
        lhs < 0 ∧ 0 ≤ rhs ∧ lhs - rhs = intMin k.bits := by
      simp [Inexact, hsigns]
    rw [hinexact]
    rw [signsMatch_iff] at hsigns
    by_cases hlhs : 0 ≤ lhs
    · rw [sub_of_nonneg hr hk hlhs (by omega)]
      simp only [true_iff]
      omega
    · rw [sub_of_neg hl hk (by omega) (by omega)]
      by_cases hleast : lhs - rhs = intMin k.bits
      · have hint : IsInt k.bits (lhs - rhs) := by
          have hpos := intMax_nonneg k.bits
          rw [isInt_iff, hleast, intMin_eq]
          omega
        rw [if_pos hleast, exact_of_isInt hint]
        simp only [Option.some.injEq, Prod.mk.injEq, Bool.false_eq_true, false_and, false_iff,
          not_not]
        exact ⟨by omega, by omega, hleast⟩
      · simp [hleast]

end

/-! ### Products -/

theorem intMax_tdiv_lt_iff (hlhs : 0 < lhs) :
    (intMax k.bits).tdiv lhs < rhs ↔ intMax k.bits < lhs * rhs := by
  rw [Int.tdiv_eq_ediv_of_nonneg (intMax_nonneg _), Int.ediv_lt_iff_lt_mul hlhs, mul_comm]

theorem lt_intMin_tdiv_iff (hrhs : 0 < rhs) :
    lhs < (intMin k.bits).tdiv rhs ↔ lhs * rhs < intMin k.bits := by
  have hmin : 0 ≤ -intMin k.bits := by
    have hpos := intMax_nonneg k.bits
    rw [intMin_eq]
    omega
  have hdiv : (intMin k.bits).tdiv rhs = -(-intMin k.bits / rhs) := by
    rw [← Int.tdiv_eq_ediv_of_nonneg hmin, Int.neg_tdiv, neg_neg]
  rw [hdiv, lt_neg, Int.ediv_lt_iff_lt_mul hrhs, neg_mul, neg_lt_neg_iff]

section
variable (hl : IsInt l.bits lhs) (hr : IsInt r.bits rhs) (hlk : l.bits ≤ k.bits)
  (hk : k.bits ≤ common l r)

include hk in
theorem multiply_of_nonneg (hlhs : 0 ≤ lhs) (hrhs : 0 ≤ rhs) :
    multiply l r k lhs rhs result = exact (.signed k) (lhs * rhs) result := by
  have hsigns : signsMatch lhs rhs := signsMatch_iff.2 (by omega)
  have hpos := intMax_nonneg k.bits
  have hproduct := mul_nonneg hlhs hrhs
  rw [multiply, if_pos hsigns, if_pos hlhs]
  refine refuse_or_store hk ?_
  rw [isInt_iff]
  rcases hlhs.eq_or_lt with rfl | hlhs
  · simp
    omega
  · rw [intMax_tdiv_lt_iff hlhs]
    omega

include hk in
theorem multiply_of_neg_nonneg (hlhs : lhs < 0) (hrhs : 0 ≤ rhs) :
    multiply l r k lhs rhs result = exact (.signed k) (lhs * rhs) result := by
  have hsigns : ¬signsMatch lhs rhs := by
    rw [signsMatch_iff]
    omega
  have hpos := intMax_nonneg k.bits
  have hmin := intMin_eq k.bits
  have hproduct := mul_nonpos_of_nonpos_of_nonneg hlhs.le hrhs
  rw [multiply, if_neg hsigns, if_pos hlhs]
  refine refuse_or_store hk ?_
  rw [isInt_iff]
  rcases hrhs.eq_or_lt with rfl | hrhs
  · simp
    omega
  · rw [lt_intMin_tdiv_iff hrhs]
    omega

include hk in
theorem multiply_of_nonneg_neg (hlhs : 0 ≤ lhs) (hrhs : rhs < 0) :
    multiply l r k lhs rhs result = exact (.signed k) (lhs * rhs) result := by
  have hsigns : ¬signsMatch lhs rhs := by
    rw [signsMatch_iff]
    omega
  have hpos := intMax_nonneg k.bits
  have hmin := intMin_eq k.bits
  have hproduct := mul_nonpos_of_nonneg_of_nonpos hlhs hrhs.le
  rw [multiply, if_neg hsigns, if_neg (by omega)]
  refine refuse_or_store hk ?_
  rw [isInt_iff]
  rcases hlhs.eq_or_lt with rfl | hlhs
  · simp
    omega
  · rw [lt_intMin_tdiv_iff hlhs, mul_comm rhs]
    omega

/-- Negation overflows at the least number of a type that is not promoted. -/
theorem isInt_neg_iff {w : Width} (h : IsInt w.bits n) :
    IsInt (common w w) (-n) ↔ ¬(32 ≤ w.bits ∧ n = intMin w.bits) := by
  have hpos := intMax_nonneg w.bits
  have hmin := intMin_eq w.bits
  rw [isInt_iff] at h
  rcases Nat.lt_or_ge w.bits 32 with hw | hw
  · have hwide : intMax w.bits < intMax 32 := intMax_lt_of_lt (b := .w32) hw
    have hcommon : common w w = 32 := by
      rw [common]
      omega
    rw [isInt_iff, hcommon]
    omega
  · have hcommon : common w w = w.bits := by
      rw [common]
      omega
    rw [isInt_iff, hcommon]
    omega

/-- Away from the defect both negations are computed; at it there is no result. -/
theorem multiply_negations (hlhs : lhs < 0) (hrhs : rhs < 0) (hl : IsInt l.bits lhs)
    (hr : IsInt r.bits rhs) :
    multiply l r k lhs rhs result =
      if toSigned k lhs = intMin k.bits ∨ toSigned k rhs = intMin k.bits then some (false, result)
      else if (32 ≤ l.bits ∧ lhs = intMin l.bits) ∨ (32 ≤ r.bits ∧ rhs = intMin r.bits) then none
      else if (intMax k.bits).tdiv (-lhs) < -rhs then some (false, result)
      else store l r k (lhs * rhs) := by
  have hsigns : signsMatch lhs rhs := signsMatch_iff.2 (by omega)
  rw [multiply, if_pos hsigns, if_neg (by omega)]
  refine if_congr Iff.rfl rfl ?_
  have hleft := isInt_neg_iff hl
  have hright := isInt_neg_iff hr
  by_cases hleft' : IsInt (common l l) (-lhs)
  · by_cases hright' : IsInt (common r r) (-rhs)
    · rw [if_neg (by tauto), inType_of_isInt hleft', inType_of_isInt hright']
      rfl
    · rw [if_pos (by tauto), inType_of_isInt hleft', inType, if_neg hright']
      rfl
  · rw [if_pos (by tauto), inType, if_neg hleft']
    rfl

theorem not_isInt_mul_of_le_intMin (hlhs : lhs ≤ intMin k.bits) (hrhs : rhs < 0) :
    ¬IsInt k.bits (lhs * rhs) := by
  have hpos := intMax_nonneg k.bits
  have hmin := intMin_eq k.bits
  have hproduct : 0 ≤ (-lhs) * (-rhs - 1) := mul_nonneg (by omega) (by omega)
  rw [isInt_iff]
  intro h
  have hbound : lhs * rhs ≤ intMax k.bits := h.2
  linarith

theorem le_intMin_of_toSigned_eq (h : toSigned k n = intMin k.bits) (hn : n < 0) :
    n ≤ intMin k.bits := by
  by_contra hgt
  have hint : IsInt k.bits n := by
    have hpos := intMax_nonneg k.bits
    exact ⟨by omega, by omega⟩
  rw [toSigned_of_isInt hint] at h
  omega

include hl hr hlk hk in
theorem multiply_eq_exact_iff_of_neg (hlhs : lhs < 0) (hrhs : rhs < 0) :
    multiply l r k lhs rhs result = exact (.signed k) (lhs * rhs) result ↔
      ¬Inexact (.signed l r k) .multiply lhs rhs := by
  have hleft := toSigned_of_isInt (isInt_mono hlk hl)
  rw [multiply_negations hlhs hrhs hl hr, hleft]
  by_cases hearly : lhs = intMin k.bits ∨ toSigned k rhs = intMin k.bits
  · have hproduct : ¬IsInt k.bits (lhs * rhs) := by
      rcases hearly with h | h
      · exact not_isInt_mul_of_le_intMin h.le hrhs
      · rw [mul_comm]
        exact not_isInt_mul_of_le_intMin (le_intMin_of_toSigned_eq h hrhs) hlhs
    rw [if_pos hearly, exact_of_not_isInt hproduct]
    simp only [Inexact, true_iff]
    tauto
  · rw [if_neg hearly]
    rw [not_or] at hearly
    have hwidthLeft : lhs = intMin l.bits → l ≠ k := by
      rintro h rfl
      exact hearly.1 h
    have hwidthRight : rhs = intMin r.bits → r ≠ k := by
      rintro h rfl
      exact hearly.2 ((toSigned_of_isInt hr).trans h)
    by_cases hnegation : (32 ≤ l.bits ∧ lhs = intMin l.bits) ∨ (32 ≤ r.bits ∧ rhs = intMin r.bits)
    · rw [if_pos hnegation]
      simp only [exact, reduceCtorEq, Inexact, false_iff, not_not]
      tauto
    · rw [if_neg hnegation]
      have hexact : ¬Inexact (.signed l r k) .multiply lhs rhs := by
        simp only [Inexact]
        tauto
      refine iff_of_true (refuse_or_store hk ?_) hexact
      have hpos := intMax_nonneg k.bits
      have hproduct := mul_pos_of_neg_of_neg hlhs hrhs
      rw [intMax_tdiv_lt_iff (by omega), neg_mul_neg, isInt_iff]
      omega

include hl hr hlk hk in
theorem multiply_eq_exact_iff :
    multiply l r k lhs rhs result = exact (.signed k) (lhs * rhs) result ↔
      ¬Inexact (.signed l r k) .multiply lhs rhs := by
  rcases lt_or_ge lhs 0 with hlhs | hlhs
  · rcases lt_or_ge rhs 0 with hrhs | hrhs
    · exact multiply_eq_exact_iff_of_neg hl hr hlk hk hlhs hrhs
    · exact iff_of_true (multiply_of_neg_nonneg hk hlhs hrhs) fun h => not_lt.2 hrhs h.2.1
  · refine iff_of_true ?_ fun h => not_lt.2 hlhs h.1
    rcases lt_or_ge rhs 0 with hrhs | hrhs
    · exact multiply_of_nonneg_neg hk hlhs hrhs
    · exact multiply_of_nonneg hk hlhs hrhs

end

end Signed

/-! ## Unsigned operands -/

namespace Unsigned

theorem has_iff : (IntType.unsigned k).Has n ↔ 0 ≤ n ∧ n < 2 ^ k.bits := by
  rw [IntType.Has, IntType.min, IntType.max]
  omega

/-- The low bits do not depend on the type the operands are computed in. -/
theorem toUnsigned_compute (hk : k.bits ≤ max l.bits r.bits)
    (hsmall : max l.bits r.bits < 32 → IsInt 32 n) :
    (compute l r n).map (toUnsigned k) = some (n % 2 ^ k.bits) := by
  rw [compute]
  split_ifs with hnarrow
  · rw [inType_of_isInt (hsmall hnarrow)]
    rfl
  · rw [Option.map_some, toUnsigned, Int.emod_emod_of_dvd n (pow_dvd_pow 2 hk)]

theorem two_pow_le_of_narrow {w : Width} (hnarrow : w.bits < 32) : (2 : Int) ^ w.bits ≤ 65536 := by
  cases w <;> revert hnarrow <;> decide

theorem lt_of_narrow {w : Width} (h : (IntType.unsigned w).Has n) (hnarrow : w.bits < 32) :
    0 ≤ n ∧ n < 65536 := by
  rw [has_iff] at h
  have hpow := two_pow_le_of_narrow hnarrow
  omega

theorem emod_add_eq {size : Int} (hlhs : 0 ≤ lhs) (hlt : lhs < size) :
    (lhs + rhs) % size =
      if lhs + rhs % size < size then lhs + rhs % size else lhs + rhs % size - size := by
  have hnonneg := Int.emod_nonneg rhs (show size ≠ 0 by omega)
  have hlt' := Int.emod_lt_of_pos rhs (show 0 < size by omega)
  rw [← Int.add_emod_emod]
  split_ifs with h
  · exact Int.emod_eq_of_lt (by omega) h
  · rw [← Int.sub_emod_right]
    exact Int.emod_eq_of_lt (by omega) (by omega)

theorem emod_sub_eq {size : Int} (hlhs : 0 ≤ lhs) (hlt : lhs < size) :
    (lhs - rhs) % size =
      if rhs % size ≤ lhs then lhs - rhs % size else lhs - rhs % size + size := by
  have hnonneg := Int.emod_nonneg rhs (show size ≠ 0 by omega)
  have hlt' := Int.emod_lt_of_pos rhs (show 0 < size by omega)
  rw [← Int.sub_emod_emod]
  split_ifs with h
  · exact Int.emod_eq_of_lt (by omega) (by omega)
  · rw [← Int.add_emod_right]
    exact Int.emod_eq_of_lt (by omega) (by omega)

theorem exact_eq :
    exact (.unsigned k) n result =
      some (if 0 ≤ n ∧ n < 2 ^ k.bits then (true, n) else (false, result)) := by
  rw [exact, if_congr has_iff rfl rfl]

section
variable (hl : (IntType.unsigned l).Has lhs) (hr : (IntType.unsigned r).Has rhs)
  (hlk : l.bits ≤ k.bits) (hk : k.bits ≤ max l.bits r.bits)

include hl hlk in
theorem lhs_lt : 0 ≤ lhs ∧ lhs < 2 ^ k.bits := by
  have hpow : (2 : Int) ^ l.bits ≤ 2 ^ k.bits := pow_le_pow_right₀ (by decide) hlk
  rw [has_iff] at hl
  omega

include hl hr hk in
theorem add_eq :
    add l r k lhs rhs result =
      some (if (lhs + rhs) % 2 ^ k.bits < lhs then (false, result)
        else (true, (lhs + rhs) % 2 ^ k.bits)) := by
  have hcompute := toUnsigned_compute (n := lhs + rhs) hk fun hnarrow => by
    have hleft := lt_of_narrow hl (by omega)
    have hright := lt_of_narrow hr (by omega)
    exact ⟨by simp [intMin]; omega, by simp [intMax]; omega⟩
  obtain ⟨value, hvalue, hmod⟩ := Option.map_eq_some_iff.1 hcompute
  rw [add, hvalue, Option.bind_eq_bind, Option.bind_some, hmod]
  exact (apply_ite some _ _ _).symm

include hl hr hk in
theorem sub_eq :
    sub l r k lhs rhs result =
      some (if (lhs - rhs) % 2 ^ k.bits > lhs then (false, result)
        else (true, (lhs - rhs) % 2 ^ k.bits)) := by
  have hcompute := toUnsigned_compute (n := lhs - rhs) hk fun hnarrow => by
    have hleft := lt_of_narrow hl (by omega)
    have hright := lt_of_narrow hr (by omega)
    exact ⟨by simp [intMin]; omega, by simp [intMax]; omega⟩
  obtain ⟨value, hvalue, hmod⟩ := Option.map_eq_some_iff.1 hcompute
  rw [sub, hvalue, Option.bind_eq_bind, Option.bind_some, hmod]
  exact (apply_ite some _ _ _).symm

include hl hr hlk hk in
theorem add_eq_exact_iff :
    add l r k lhs rhs result = exact (.unsigned k) (lhs + rhs) result ↔
      ¬Inexact (.unsigned l r k) .add lhs rhs := by
  obtain ⟨hlhs, hlt⟩ := lhs_lt hl hlk
  have hrhs := (has_iff.1 hr).1
  rw [add_eq hl hr hk, exact_eq, emod_add_eq hlhs hlt, Inexact]
  have hmod := Int.emod_lt_of_pos rhs (show 0 < (2 : Int) ^ k.bits by positivity)
  rcases lt_or_ge rhs (2 ^ k.bits) with hsmall | hlarge
  · rw [Int.emod_eq_of_lt hrhs hsmall]
    generalize (2 : Int) ^ k.bits = size at *
    refine iff_of_true ?_ (by omega)
    by_cases hfits : lhs + rhs < size
    · rw [if_pos hfits, if_neg (by omega), if_pos ⟨by omega, hfits⟩]
    · rw [if_neg hfits, if_pos (by omega), if_neg (by omega)]
  · have hnonneg := Int.emod_nonneg rhs (show (2 : Int) ^ k.bits ≠ 0 by positivity)
    generalize rhs % 2 ^ k.bits = rest at *
    generalize (2 : Int) ^ k.bits = size at *
    rw [if_neg (show ¬(0 ≤ lhs + rhs ∧ lhs + rhs < size) by omega)]
    by_cases hfits : lhs + rest < size
    · rw [if_pos hfits, if_neg (by omega)]
      simp [hlarge, hfits]
    · rw [if_neg hfits, if_pos (by omega)]
      simp [hfits]

include hl hr hlk hk in
theorem sub_eq_exact_iff :
    sub l r k lhs rhs result = exact (.unsigned k) (lhs - rhs) result ↔
      ¬Inexact (.unsigned l r k) .sub lhs rhs := by
  obtain ⟨hlhs, hlt⟩ := lhs_lt hl hlk
  have hrhs := (has_iff.1 hr).1
  rw [sub_eq hl hr hk, exact_eq, emod_sub_eq hlhs hlt, Inexact]
  have hmod := Int.emod_lt_of_pos rhs (show 0 < (2 : Int) ^ k.bits by positivity)
  rcases lt_or_ge rhs (2 ^ k.bits) with hsmall | hlarge
  · rw [Int.emod_eq_of_lt hrhs hsmall]
    generalize (2 : Int) ^ k.bits = size at *
    refine iff_of_true ?_ (by omega)
    by_cases hfits : rhs ≤ lhs
    · rw [if_pos hfits, if_neg (by omega), if_pos ⟨by omega, by omega⟩]
    · rw [if_neg hfits, if_pos (by omega), if_neg (by omega)]
  · have hnonneg := Int.emod_nonneg rhs (show (2 : Int) ^ k.bits ≠ 0 by positivity)
    generalize rhs % 2 ^ k.bits = rest at *
    generalize (2 : Int) ^ k.bits = size at *
    rw [if_neg (show ¬(0 ≤ lhs - rhs ∧ lhs - rhs < size) by omega)]
    by_cases hfits : rest ≤ lhs
    · rw [if_pos hfits, if_neg (by omega)]
      simp [hlarge, hfits]
    · rw [if_neg hfits, if_pos (by omega)]
      simp [hfits]

include hl hr hk in
theorem multiply_eq_exact :
    multiply l r k lhs rhs result = exact (.unsigned k) (lhs * rhs) result := by
  have hlhs := (has_iff.1 hl).1
  have hrhs := (has_iff.1 hr).1
  have hsize : (0 : Int) < 2 ^ k.bits := by positivity
  rw [multiply, exact_eq]
  by_cases hzero : lhs = 0 ∨ rhs = 0
  · have hproduct : lhs * rhs = 0 := mul_eq_zero.2 hzero
    rw [if_pos hzero, hproduct, if_pos ⟨le_rfl, hsize⟩]
  · rw [not_or] at hzero
    have hdiv : (2 ^ k.bits - 1 : Int).tdiv lhs < rhs ↔ ¬lhs * rhs < 2 ^ k.bits := by
      rw [Int.tdiv_eq_ediv_of_nonneg (by omega), Int.ediv_lt_iff_lt_mul (by omega), mul_comm]
      omega
    have hproduct := mul_nonneg hlhs hrhs
    rw [if_neg (by omega), if_congr hdiv rfl rfl, ite_not]
    by_cases hfits : lhs * rhs < 2 ^ k.bits
    · have hcompute := toUnsigned_compute (n := lhs * rhs) hk fun hnarrow => by
        have hpow := two_pow_le_of_narrow (show k.bits < 32 by omega)
        exact ⟨by simp [intMin]; omega, by simp [intMax]; omega⟩
      obtain ⟨value, hvalue, hmod⟩ := Option.map_eq_some_iff.1 hcompute
      rw [if_pos hfits, if_pos ⟨hproduct, hfits⟩, hvalue, Option.map_some, hmod,
        Int.emod_eq_of_lt hproduct hfits]
    · rw [if_neg hfits, if_neg (by omega)]

end

end Unsigned

/-! ## `int` and `unsigned` -/

namespace Mixed

theorem store_eq_exact {resultType : IntType} (hn : IsInt 64 n)
    (hconvert : resultType.Has n → resultType.convert n = n) :
    store resultType n result = exact resultType n result := by
  rw [store, inType_of_isInt hn, exact, Option.bind_eq_bind, Option.bind_some]
  by_cases hfits : resultType.Has n
  · obtain ⟨hmin, hmax⟩ := hfits
    rw [if_neg (by omega), if_neg (by omega), if_pos ⟨hmin, hmax⟩, hconvert ⟨hmin, hmax⟩]
  · rw [if_neg hfits]
    rw [IntType.Has] at hfits
    split_ifs
    · rfl
    · rfl
    · omega

end Mixed

theorem IntType.convert_of_has {type : IntType} (h : type.Has n) : type.convert n = n := by
  cases type with
  | signed w => exact toSigned_of_isInt h
  | unsigned w =>
    rw [Unsigned.has_iff] at h
    exact Int.emod_eq_of_lt h.1 h.2

/-! ## All instances -/

namespace Instance

theorem le_of_isUsed (h : k = resultWidth l r ∨ k = l) :
    l.bits ≤ k.bits ∧ k.bits ≤ max l.bits r.bits := by
  rcases h with rfl | rfl
  · rw [resultWidth]
    split_ifs <;> omega
  · omega

/-- An `int` and an `unsigned` combine without overflow of `int64_t`. -/
theorem isInt_value (operation : Operation) {a b : Int} (ha : (IntType.signed .w32).Has a)
    (hb : (IntType.unsigned .w32).Has b) :
    IsInt 64 (operation.value a b) ∧ IsInt 64 (operation.value b a) := by
  have ha : -2147483648 ≤ a ∧ a ≤ 2147483647 := ha
  have hb : 0 ≤ b ∧ b ≤ 4294967295 := hb
  have hmin : intMin 64 = -9223372036854775808 := rfl
  have hmax : intMax 64 = 9223372036854775807 := rfl
  cases operation with
  | add =>
    simp only [Operation.value, IsInt]
    omega
  | sub =>
    simp only [Operation.value, IsInt]
    omega
  | multiply =>
    have hlower := mul_le_mul_of_nonneg_right ha.1 hb.1
    have hupper := mul_le_mul_of_nonneg_right ha.2 hb.1
    simp only [Operation.value, IsInt, mul_comm b a]
    omega

/-- An operation is exact at every pair of operands but the inexact ones. -/
theorem run_eq_exact_iff (i : Instance) (operation : Operation) (lhs rhs result : Int)
    (hi : i.IsUsed) (hlhs : i.lhsType.Has lhs) (hrhs : i.rhsType.Has rhs) :
    i.run operation lhs rhs result =
        exact i.resultType (operation.value lhs rhs) result ↔
      ¬Inexact i operation lhs rhs := by
  cases i with
  | signed l r k =>
    obtain ⟨hlk, hk⟩ := le_of_isUsed hi
    have hcommon : k.bits ≤ common l r := le_trans hk (le_max_right _ _)
    cases operation with
    | add => exact Signed.add_eq_exact_iff hlhs hrhs hlk hcommon
    | sub => exact Signed.sub_eq_exact_iff hlhs hrhs hcommon
    | multiply => exact Signed.multiply_eq_exact_iff hlhs hrhs hlk hcommon
  | unsigned l r k =>
    obtain ⟨hlk, hk⟩ := le_of_isUsed hi
    cases operation with
    | add => exact Unsigned.add_eq_exact_iff hlhs hrhs hlk hk
    | sub => exact Unsigned.sub_eq_exact_iff hlhs hrhs hlk hk
    | multiply => exact iff_of_true (Unsigned.multiply_eq_exact hlhs hrhs hk) id
  | intUnsigned resultSigned =>
    refine iff_of_true ?_ id
    have hvalue := (isInt_value operation hlhs hrhs).1
    cases operation <;> exact Mixed.store_eq_exact hvalue IntType.convert_of_has
  | unsignedInt resultSigned =>
    refine iff_of_true ?_ id
    have hvalue := (isInt_value operation hrhs hlhs).2
    cases operation with
    | add =>
      rw [Operation.value, add_comm] at hvalue ⊢
      exact Mixed.store_eq_exact hvalue IntType.convert_of_has
    | sub => exact Mixed.store_eq_exact hvalue IntType.convert_of_has
    | multiply =>
      rw [Operation.value, mul_comm] at hvalue ⊢
      exact Mixed.store_eq_exact hvalue IntType.convert_of_has

/-- `-1 - 3` is computed exactly. -/
theorem run_sub_exact :
    (signed .w32 .w32 .w32).run .sub (-1) 3 0 = exact (.signed .w32) (-4) 0 :=
  (run_eq_exact_iff (signed .w32 .w32 .w32) .sub (-1) 3 0 (.inl rfl) (by decide) (by decide)).2
    (by simp [Inexact, signsMatch, intMin, Width.bits])

/-- The least `int` less zero is said to overflow, the least `int` times a negative `int64_t`
overflows inside, and an `unsigned` plus a `size_t` loses the high half. -/
theorem run_ne_exact :
    ((signed .w32 .w32 .w32).IsUsed ∧ (signed .w32 .w64 .w64).IsUsed ∧
        (unsigned .w32 .w64 .w32).IsUsed) ∧
      ((signed .w32 .w32 .w32).run .sub (-2147483648) 0 7 = some (false, 7) ∧
        exact (.signed .w32) (-2147483648 - 0) 7 = some (true, -2147483648)) ∧
      ((signed .w32 .w64 .w64).run .multiply (-2147483648) (-1) 7 = none ∧
        exact (.signed .w64) (-2147483648 * -1) 7 = some (true, 2147483648)) ∧
      ((unsigned .w32 .w64 .w32).run .add 0 4294967296 7 = some (true, 0) ∧
        exact (.unsigned .w32) (0 + 4294967296) 7 = some (false, 7)) :=
  ⟨⟨.inl rfl, .inl rfl, .inr rfl⟩, by decide, by decide, by decide⟩

end Instance

/-! ## Expressions -/

/-- An unsigned `Checked<T, RecordOverflow>`. -/
structure Checked where
  value : Int
  overflowed : Bool
  deriving DecidableEq

/-- The operators on two of them. `safeGet` of the right one is skipped when the left one has
overflowed. -/
def Checked.operate (operation : Operation) (l r : Width) (lhs rhs : Checked) : Option Checked := do
  let y := if lhs.overflowed then 0 else rhs.value
  let (ok, result) ← (Instance.unsigned l r (resultWidth l r)).run operation lhs.value y 0
  some (if lhs.overflowed || rhs.overflowed || !ok then ⟨0, true⟩ else ⟨result, false⟩)

/-- An expression over unsigned numbers of any widths. -/
inductive Expr
  | number (width : Width) (n : Int)
  | apply (operation : Operation) (lhs rhs : Expr)

namespace Expr

def width : Expr → Width
  | number width _ => width
  | apply _ lhs rhs => resultWidth lhs.width rhs.width

def eval : Expr → Option Checked
  | number width n => some ⟨toUnsigned width n, !decide ((IntType.unsigned width).Has n)⟩
  | apply operation lhs rhs => do
    Checked.operate operation lhs.width rhs.width (← lhs.eval) (← rhs.eval)

/-- The value of the expression, if its type and those of all its parts have their values. -/
def exactValue : Expr → Option Int
  | number width n => if (IntType.unsigned width).Has n then some n else none
  | apply operation lhs rhs => do
    let n := operation.value (← lhs.exactValue) (← rhs.exactValue)
    if (IntType.unsigned (resultWidth lhs.width rhs.width)).Has n then some n else none

theorem run_unsigned_eq_exact {operation : Operation} {lhs rhs result : Int}
    (hl : (IntType.unsigned l).Has lhs) (hr : (IntType.unsigned r).Has rhs) :
    (Instance.unsigned l r (resultWidth l r)).run operation lhs rhs result =
      exact (.unsigned (resultWidth l r)) (operation.value lhs rhs) result := by
  obtain ⟨hlk, hk⟩ := Instance.le_of_isUsed (.inl rfl : resultWidth l r = _ ∨ _)
  have hrhs : rhs < 2 ^ (resultWidth l r).bits :=
    (Unsigned.lhs_lt hr (by rw [resultWidth]; split_ifs <;> omega)).2
  cases operation with
  | add => exact (Unsigned.add_eq_exact_iff hl hr hlk hk).2 fun h => absurd h.1 (not_le.2 hrhs)
  | sub => exact (Unsigned.sub_eq_exact_iff hl hr hlk hk).2 fun h => absurd h.1 (not_le.2 hrhs)
  | multiply => exact Unsigned.multiply_eq_exact hl hr hk

theorem has_zero (w : Width) : (IntType.unsigned w).Has 0 :=
  Unsigned.has_iff.2 ⟨le_rfl, by positivity⟩

/-- An expression has overflowed at the end if and only if some part of it did not fit its type, and
else its value is the mathematical one: an overflow is not lost, also by a product with zero. -/
theorem exactValue_eq_eval (e : Expr) :
    ∃ c, e.eval = some c ∧ (IntType.unsigned e.width).Has c.value ∧
      e.exactValue = if c.overflowed then none else some c.value := by
  induction e with
  | number w n =>
    refine ⟨_, rfl, Unsigned.has_iff.2 ⟨Int.emod_nonneg _ (by positivity),
      Int.emod_lt_of_pos _ (by positivity)⟩, ?_⟩
    by_cases h : (IntType.unsigned w).Has n
    · have same : toUnsigned w n = n := IntType.convert_of_has h
      simp [exactValue, h, same]
    · simp [exactValue, h]
  | apply operation lhs rhs ihl ihr =>
    obtain ⟨cl, hl, hasl, exactl⟩ := ihl
    obtain ⟨cr, hr, hasr, exactr⟩ := ihr
    have hasy : (IntType.unsigned rhs.width).Has (if cl.overflowed then 0 else cr.value) := by
      split_ifs
      · exact has_zero _
      · exact hasr
    have run := @run_unsigned_eq_exact _ _ operation _ _ 0 hasl hasy
    rw [eval, hl, hr, exactValue, exactl, exactr]
    simp only [Option.bind_eq_bind, Option.bind_some, Checked.operate, run, exact, width]
    refine ⟨_, rfl, ?_⟩
    have zero := has_zero (resultWidth lhs.width rhs.width)
    cases cl.overflowed <;> cases cr.overflowed <;> simp [zero]
    by_cases h : (IntType.unsigned (resultWidth lhs.width rhs.width)).Has
      (operation.value cl.value cr.value) <;> simp [h, zero]

end Expr

end Odyssey.WTF.CheckedArithmetic
