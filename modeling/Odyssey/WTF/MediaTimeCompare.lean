import Mathlib.Data.Prod.Lex
import Mathlib.Order.Compare
import Odyssey.WTF.MediaTime

/-!
# Comparing media times

`compare` is the order of a key: the kind of the time and, for finite times, its rational value.
-/
namespace Odyssey.WTF.MediaTime

namespace ComparisonFlags

def ofOrdering : Ordering → ComparisonFlags
  | .lt => lessThan
  | .eq => equalTo
  | .gt => greaterThan

theorem neg_ofOrdering (o : Ordering) : (ofOrdering o).neg = ofOrdering o.swap := by
  cases o <;> rfl

end ComparisonFlags

open ComparisonFlags

/-! ## Finite times -/

section
variable {value value' scale scale' : Int}

theorem tmod_bounds (hscale : 0 < scale) (value : Int) :
    -scale < value.tmod scale ∧ value.tmod scale < scale := by
  have hupper := Int.tmod_lt_of_pos value hscale
  have hlower := Int.tmod_lt_of_pos (-value) hscale
  rw [Int.neg_tmod] at hlower
  omega

/-- Truncated quotients never change places. -/
theorem mul_lt_mul_of_tdiv_lt (hscale : 0 < scale) (hscale' : 0 < scale')
    (h : value.tdiv scale < value'.tdiv scale') : value * scale' < value' * scale := by
  have hdiv := Int.mul_tdiv_add_tmod value scale
  have hdiv' := Int.mul_tdiv_add_tmod value' scale'
  obtain ⟨hlower, hupper⟩ := tmod_bounds hscale value
  obtain ⟨hlower', hupper'⟩ := tmod_bounds hscale' value'
  have hproduct : 0 < scale * scale' := Int.mul_pos hscale hscale'
  by_cases hneg : 0 ≤ value'
  · have hrest := Int.tmod_nonneg scale' hneg
    nlinarith
  · have hquotient : value.tdiv scale < 0 := by
      have := Int.tdiv_nonneg (show 0 ≤ -value' by omega) hscale'.le
      rw [Int.neg_tdiv] at this
      omega
    have hvalue : value < 0 := by
      by_contra hnot
      have := Int.tdiv_nonneg (show 0 ≤ value by omega) hscale.le
      omega
    have hrest : value.tmod scale ≤ 0 := by
      have := Int.tmod_nonneg scale (show 0 ≤ -value by omega)
      rw [Int.neg_tmod] at this
      omega
    nlinarith

theorem mul_sub_mul_of_tdiv_eq (h : value.tdiv scale = value'.tdiv scale') :
    value * scale' - value' * scale =
      value.tmod scale * scale' - value'.tmod scale' * scale := by
  have hdiv := Int.mul_tdiv_add_tmod value scale
  have hdiv' := Int.mul_tdiv_add_tmod value' scale'
  rw [h] at hdiv
  calc value * scale' - value' * scale
      = (scale * value'.tdiv scale' + value.tmod scale) * scale' -
          (scale' * value'.tdiv scale' + value'.tmod scale') * scale := by rw [hdiv, hdiv']
    _ = value.tmod scale * scale' - value'.tmod scale' * scale := by ring

/-- A remainder times a scale is below 2^62. -/
theorem isInt_tmod_mul (hscale : 0 < scale) (hle : scale ≤ maximumTimeScale)
    (hscale' : 0 < scale') (hle' : scale' ≤ maximumTimeScale) (value : Int) :
    IsInt 64 (value.tmod scale * scale') := by
  obtain ⟨hlower, hupper⟩ := tmod_bounds hscale value
  have hproduct : scale * scale' ≤ maximumTimeScale * maximumTimeScale :=
    Int.mul_le_mul hle hle' hscale'.le (by decide)
  have hmax := Int.mul_le_mul_of_nonneg_right hupper.le hscale'.le
  have hmin := Int.mul_le_mul_of_nonneg_right hlower.le hscale'.le
  rw [maximumTimeScale] at hproduct
  have hintMin : intMin 64 = -9223372036854775808 := rfl
  have hintMax : intMax 64 = 9223372036854775807 := rfl
  constructor <;> linarith

end

/-- On finite times `compare` is the order of the cross products. -/
theorem compareFinite_eq {a b : MediaTime} (ha : 0 < a.timeScale)
    (ha' : a.timeScale ≤ maximumTimeScale) (hb : 0 < b.timeScale)
    (hb' : b.timeScale ≤ maximumTimeScale) :
    compareFinite a b =
      some (ofOrdering (cmp (a.timeValue * b.timeScale) (b.timeValue * a.timeScale))) := by
  unfold compareFinite
  generalize horder : cmp (a.timeValue * b.timeScale) (b.timeValue * a.timeScale) = order
  simp only
  split_ifs with hgt hlt hfits heq hgreater
  · rw [← horder, (cmp_eq_gt_iff _ _).2 (mul_lt_mul_of_tdiv_lt hb ha hgt)]
    rfl
  · rw [← horder, (cmp_eq_lt_iff _ _).2 (mul_lt_mul_of_tdiv_lt ha hb hlt)]
    rfl
  · have hrest := mul_sub_mul_of_tdiv_eq (le_antisymm (not_lt.1 hgt) (not_lt.1 hlt))
    rw [← horder, (cmp_eq_eq_iff _ _).2 (by omega)]
    rfl
  · have hrest := mul_sub_mul_of_tdiv_eq (le_antisymm (not_lt.1 hgt) (not_lt.1 hlt))
    rw [← horder, (cmp_eq_gt_iff _ _).2 (by omega)]
    rfl
  · have hrest := mul_sub_mul_of_tdiv_eq (le_antisymm (not_lt.1 hgt) (not_lt.1 hlt))
    rw [← horder, (cmp_eq_lt_iff _ _).2 (by omega)]
    rfl
  · exact absurd ⟨isInt_tmod_mul ha ha' hb hb' _, isInt_tmod_mul hb hb' ha ha' _⟩ hfits

/-! ## Kinds of times -/

inductive Kind
  | negativeInfinite
  | finite
  | indefinite
  | positiveInfinite
  | invalid
  deriving DecidableEq

def Kind.rank : Kind → Nat
  | negativeInfinite => 0
  | finite => 1
  | indefinite => 2
  | positiveInfinite => 3
  | invalid => 4

/-- A time with the values of its types, a positive scale and any flags. -/
structure InRange (t : MediaTime) : Prop where
  timeValue : IsInt 64 t.timeValue
  timeScale_pos : 0 < t.timeScale
  timeScale_le : t.timeScale ≤ maximumTimeScale

/-- A time of one kind. -/
structure IsTime (t : MediaTime) (kind : Kind) : Prop extends t.InRange where
  isValid : t.isValid = decide (kind ≠ .invalid)
  isPositiveInfinite : t.isPositiveInfinite = decide (kind = .positiveInfinite)
  isNegativeInfinite : t.isNegativeInfinite = decide (kind = .negativeInfinite)
  isIndefinite : t.isIndefinite = decide (kind = .indefinite)

/-- No two of the flags for special values are set. -/
def IsOneKind (t : MediaTime) : Prop := ∃ kind, t.IsTime kind

/-- What times are ordered by: the kind, then the value of finite times. -/
def key (t : MediaTime) (kind : Kind) : ℕ ×ₗ ℚ :=
  toLex (kind.rank, if kind = .finite then t.toRat else 0)

section
variable {a b : MediaTime}

theorem cmp_toRat (ha : 0 < a.timeScale) (hb : 0 < b.timeScale) :
    cmp a.toRat b.toRat = cmp (a.timeValue * b.timeScale) (b.timeValue * a.timeScale) := by
  have ha' : (0 : ℚ) < a.timeScale := by exact_mod_cast ha
  have hb' : (0 : ℚ) < b.timeScale := by exact_mod_cast hb
  have hlt (a b : MediaTime) (ha : (0 : ℚ) < a.timeScale) (hb : (0 : ℚ) < b.timeScale) :
      a.toRat < b.toRat ↔ a.timeValue * b.timeScale < b.timeValue * a.timeScale := by
    rw [toRat, toRat, div_lt_div_iff₀ ha hb]
    exact_mod_cast Iff.rfl
  rcases lt_trichotomy (a.timeValue * b.timeScale) (b.timeValue * a.timeScale) with h | h | h
  · rw [(cmp_eq_lt_iff _ _).2 h, (cmp_eq_lt_iff _ _).2 ((hlt a b ha' hb').2 h)]
  · have h₁ := mt (hlt a b ha' hb').1 (by omega)
    have h₂ := mt (hlt b a hb' ha').1 (by omega)
    rw [(cmp_eq_eq_iff _ _).2 h, (cmp_eq_eq_iff _ _).2 (le_antisymm (not_lt.1 h₂) (not_lt.1 h₁))]
  · rw [(cmp_eq_gt_iff _ _).2 h, (cmp_eq_gt_iff _ _).2 ((hlt b a hb' ha').2 h)]

variable {kind kind' : Kind}

/-- The tests of the flags compare the kinds. -/
theorem compare_of_kinds (ha : a.IsTime kind) (hb : b.IsTime kind') :
    compare a b =
      if kind.rank < kind'.rank then some lessThan
      else if kind'.rank < kind.rank then some greaterThan
      else if kind = .finite then compareFinite a b
      else some equalTo := by
  rw [compare, ha.isValid, ha.isPositiveInfinite, ha.isNegativeInfinite, ha.isIndefinite,
    hb.isValid, hb.isPositiveInfinite, hb.isNegativeInfinite, hb.isIndefinite]
  cases kind <;> cases kind' <;> rfl

theorem key_finite_lt_iff (a b : MediaTime) :
    a.key .finite < b.key .finite ↔ a.toRat < b.toRat := by
  rw [key, key, Prod.Lex.toLex_lt_toLex]
  simp

theorem key_finite_eq_iff (a b : MediaTime) :
    a.key .finite = b.key .finite ↔ a.toRat = b.toRat := by
  rw [key, key, toLex_inj]
  simp

theorem cmp_key_finite (a b : MediaTime) :
    cmp (a.key .finite) (b.key .finite) = cmp a.toRat b.toRat := by
  rcases lt_trichotomy a.toRat b.toRat with h | h | h
  · rw [(cmp_eq_lt_iff _ _).2 h, (cmp_eq_lt_iff _ _).2 ((key_finite_lt_iff a b).2 h)]
  · rw [(cmp_eq_eq_iff _ _).2 h, (cmp_eq_eq_iff _ _).2 ((key_finite_eq_iff a b).2 h)]
  · rw [(cmp_eq_gt_iff _ _).2 h, (cmp_eq_gt_iff _ _).2 ((key_finite_lt_iff b a).2 h)]

theorem Kind.rank_injective : Function.Injective Kind.rank := by
  intro kind kind' h
  cases kind <;> cases kind' <;> first | rfl | cases h

/-- `compare` is the order of the keys. -/
theorem compare_eq_cmp_key (ha : a.IsTime kind) (hb : b.IsTime kind') :
    compare a b = some (ofOrdering (cmp (a.key kind) (b.key kind'))) := by
  rw [compare_of_kinds ha hb]
  generalize horder : cmp (a.key kind) (b.key kind') = order
  split_ifs with hlt hgt hfinite
  · have hkey : a.key kind < b.key kind' := Prod.Lex.toLex_lt_toLex.2 (.inl hlt)
    rw [← horder, (cmp_eq_lt_iff _ _).2 hkey]
    rfl
  · have hkey : b.key kind' < a.key kind := Prod.Lex.toLex_lt_toLex.2 (.inl hgt)
    rw [← horder, (cmp_eq_gt_iff _ _).2 hkey]
    rfl
  · obtain rfl := Kind.rank_injective (le_antisymm (not_lt.1 hgt) (not_lt.1 hlt))
    subst hfinite
    rw [← horder,
      compareFinite_eq ha.timeScale_pos ha.timeScale_le hb.timeScale_pos hb.timeScale_le,
      ← cmp_toRat ha.timeScale_pos hb.timeScale_pos, cmp_key_finite]
  · obtain rfl := Kind.rank_injective (le_antisymm (not_lt.1 hgt) (not_lt.1 hlt))
    have hkey : a.key kind = b.key kind := by simp [key, hfinite]
    rw [← horder, hkey, cmp_self_eq_eq]
    rfl

theorem compare_eq_lessThan_iff (ha : a.IsTime kind) (hb : b.IsTime kind') :
    compare a b = some lessThan ↔ a.key kind < b.key kind' := by
  rw [compare_eq_cmp_key ha hb, ← cmp_eq_lt_iff]
  cases cmp (a.key kind) (b.key kind') <;> simp [ofOrdering]

theorem compare_eq_equalTo_iff (ha : a.IsTime kind) (hb : b.IsTime kind') :
    compare a b = some equalTo ↔ a.key kind = b.key kind' := by
  rw [compare_eq_cmp_key ha hb, ← cmp_eq_eq_iff (a.key kind)]
  cases cmp (a.key kind) (b.key kind') <;> simp [ofOrdering]

theorem compare_eq_greaterThan_iff (ha : a.IsTime kind) (hb : b.IsTime kind') :
    compare a b = some greaterThan ↔ b.key kind' < a.key kind := by
  rw [compare_eq_cmp_key ha hb, ← cmp_eq_gt_iff]
  cases cmp (a.key kind) (b.key kind') <;> simp [ofOrdering]

end

/-- What an order says about three times. Finite times are ordered by their values. -/
structure Ordered (a b c : MediaTime) : Prop where
  antisymm : ∃ flags, compare a b = some flags ∧ compare b a = some flags.neg
  le_trans : compare a b ≠ some greaterThan → compare b c ≠ some greaterThan →
    compare a c ≠ some greaterThan
  trans : ∀ flags, compare a b = some flags → compare b c = some flags → compare a c = some flags
  finite : a.IsTime .finite → b.IsTime .finite →
    (compare a b = some equalTo ↔ a.toRat = b.toRat) ∧
    (compare a b = some lessThan ↔ a.toRat < b.toRat) ∧
    (compare a b = some greaterThan ↔ b.toRat < a.toRat)

/-- `compare` returns for every two times of one kind, without overflow, and is a total preorder. -/
theorem ordered_of_isOneKind {a b c : MediaTime} (ha : a.IsOneKind) (hb : b.IsOneKind)
    (hc : c.IsOneKind) : Ordered a b c := by
  obtain ⟨kind, ha⟩ := ha
  obtain ⟨kind', hb⟩ := hb
  obtain ⟨kind'', hc⟩ := hc
  refine ⟨?_, ?_, ?_, ?_⟩
  · refine ⟨_, compare_eq_cmp_key ha hb, ?_⟩
    rw [compare_eq_cmp_key hb ha, neg_ofOrdering, cmp_swap]
  · rw [Ne, Ne, Ne, compare_eq_greaterThan_iff ha hb, compare_eq_greaterThan_iff hb hc,
      compare_eq_greaterThan_iff ha hc, not_lt, not_lt, not_lt]
    exact le_trans
  · intro flags
    cases flags with
    | lessThan =>
      rw [compare_eq_lessThan_iff ha hb, compare_eq_lessThan_iff hb hc,
        compare_eq_lessThan_iff ha hc]
      exact lt_trans
    | equalTo =>
      rw [compare_eq_equalTo_iff ha hb, compare_eq_equalTo_iff hb hc,
        compare_eq_equalTo_iff ha hc]
      exact Eq.trans
    | greaterThan =>
      rw [compare_eq_greaterThan_iff ha hb, compare_eq_greaterThan_iff hb hc,
        compare_eq_greaterThan_iff ha hc]
      exact fun h h' => lt_trans h' h
  · intro ha hb
    rw [compare_eq_equalTo_iff ha hb, compare_eq_lessThan_iff ha hb,
      compare_eq_greaterThan_iff ha hb, key_finite_eq_iff, key_finite_lt_iff, key_finite_lt_iff]
    exact ⟨Iff.rfl, Iff.rfl, Iff.rfl⟩

/-! ## Times of several kinds -/

/-- The flag of a kind is set. -/
def has (t : MediaTime) : Kind → Bool
  | .invalid => !t.isValid
  | .positiveInfinite => t.isPositiveInfinite
  | .negativeInfinite => t.isNegativeInfinite
  | .indefinite => t.isIndefinite
  | .finite => false

/-- The constant of a special kind. -/
def special : Kind → MediaTime
  | .invalid => invalidTime
  | .positiveInfinite => positiveInfiniteTime
  | .negativeInfinite => negativeInfiniteTime
  | .indefinite => indefiniteTime
  | .finite => ofValue 0 1

theorem isOneKind_special (kind : Kind) : (special kind).IsOneKind := by
  refine ⟨kind, ⟨?_, ?_, ?_⟩, ?_, ?_, ?_, ?_⟩ <;> cases kind <;> decide

/-- A time equals every special value whose flag it has. -/
theorem compare_special {t : MediaTime} {kind : Kind} (h : t.has kind = true) :
    compare (special kind) t = some equalTo ∧ compare t (special kind) = some equalTo := by
  cases kind <;> simp only [has, Bool.not_eq_true', Bool.false_eq_true] at h <;>
    simp [compare, special, invalidTime, positiveInfiniteTime, negativeInfiniteTime,
      indefiniteTime, ofValue, h]

theorem isOneKind_of_unique {t : MediaTime} (range : t.InRange)
    (unique : ∀ kind kind', t.has kind = true → t.has kind' = true → kind = kind') :
    t.IsOneKind := by
  obtain ⟨value, scale, isValid, positive, negative, indefinite⟩ := t
  cases isValid <;> cases positive <;> cases negative <;> cases indefinite
  all_goals first
    | exact ⟨.invalid, range, rfl, rfl, rfl, rfl⟩
    | exact ⟨.finite, range, rfl, rfl, rfl, rfl⟩
    | exact ⟨.positiveInfinite, range, rfl, rfl, rfl, rfl⟩
    | exact ⟨.negativeInfinite, range, rfl, rfl, rfl, rfl⟩
    | exact ⟨.indefinite, range, rfl, rfl, rfl, rfl⟩
    | exact absurd (unique .invalid .positiveInfinite rfl rfl) (by decide)
    | exact absurd (unique .invalid .negativeInfinite rfl rfl) (by decide)
    | exact absurd (unique .invalid .indefinite rfl rfl) (by decide)
    | exact absurd (unique .positiveInfinite .negativeInfinite rfl rfl) (by decide)
    | exact absurd (unique .positiveInfinite .indefinite rfl rfl) (by decide)
    | exact absurd (unique .negativeInfinite .indefinite rfl rfl) (by decide)

/-- `compare` orders a time among the times of one kind, finite times by their values and without
overflow, if and only if the time is of one kind itself. -/
theorem compare_totalPreorder_iff (t : MediaTime) (range : t.InRange) :
    (∀ a b : MediaTime, a.IsOneKind → b.IsOneKind →
      Ordered t a b ∧ Ordered a t b ∧ Ordered a b t) ↔ t.IsOneKind := by
  constructor
  · intro h
    refine isOneKind_of_unique range fun kind kind' hkind hkind' => ?_
    -- the time is equal to two special values, and so they must be equal to each other
    have equal := (h _ _ (isOneKind_special kind) (isOneKind_special kind')).2.1.trans equalTo
      (compare_special hkind).1 (compare_special hkind').2
    revert equal
    cases kind <;> cases kind' <;> decide
  · intro h a b ha hb
    exact ⟨ordered_of_isOneKind h ha hb, ordered_of_isOneKind ha h hb,
      ordered_of_isOneKind ha hb h⟩

theorem compare_totalPreorder_samples :
    (Ordered (ofValue (-1) 3) indefiniteTime invalidTime ∧
      Ordered indefiniteTime (ofValue (-1) 3) invalidTime ∧
      Ordered indefiniteTime invalidTime (ofValue (-1) 3)) ∧
    Ordered positiveInfiniteTime (ofValue 0 1) negativeInfiniteTime ∧
      Ordered (ofValue 0 1) positiveInfiniteTime negativeInfiniteTime ∧
      Ordered (ofValue 0 1) negativeInfiniteTime positiveInfiniteTime := by
  have range : (ofValue (-1) 3).InRange := ⟨by decide, by decide, by decide⟩
  have range' : positiveInfiniteTime.InRange := ⟨by decide, by decide, by decide⟩
  exact ⟨(compare_totalPreorder_iff _ range).mpr ⟨.finite, range, rfl, rfl, rfl, rfl⟩ _ _
      (isOneKind_special .indefinite) (isOneKind_special .invalid),
    (compare_totalPreorder_iff _ range').mpr (isOneKind_special .positiveInfinite) _ _
      (isOneKind_special .finite) (isOneKind_special .negativeInfinite)⟩

/-- Positive infinity without the flag `Valid` equals positive infinity and the invalid time, which
are different. -/
theorem compare_not_transitive :
    let t := { positiveInfiniteTime with isValid := false }
    t.InRange ∧ compare positiveInfiniteTime t = some equalTo ∧
      compare t invalidTime = some equalTo ∧
      compare positiveInfiniteTime invalidTime = some lessThan :=
  ⟨⟨by decide, by decide, by decide⟩, by decide, by decide, by decide⟩

end Odyssey.WTF.MediaTime
