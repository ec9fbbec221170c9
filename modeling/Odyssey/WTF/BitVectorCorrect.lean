import Odyssey.WTF.BitVector

/-!
# Bit vectors are finite sets

Without its tag, a bit vector is a list of words, and `get` reads the bits of that list. The set
operations combine the lists word by word; the exceptions are `merge` with a shorter vector and
`filter` with an inline one.
-/
namespace Odyssey.WTF.BitVector

open Lib WordBits

/-- The words of a bit vector without the tag. -/
def members : BitVector → List Word
  | inlineBits m_bitsOrPointer _ => [cleanseInlineBits m_bitsOrPointer]
  | outOfLine b => b.bits

theorem members_inlineBits (x : Word) (tagged) :
    (inlineBits x tagged).members = [cleanseInlineBits x] := rfl

theorem members_outOfLine (b : OutOfLineBits) : (outOfLine b).members = b.bits := rfl

theorem getLsbD_cleanse (x : Word) (i : Nat) :
    (cleanseInlineBits x).getLsbD i = (x.getLsbD i && decide (i ≠ 63)) := by
  by_cases hi : i < 64
  · have htag : inlineTag.getLsbD i = decide (i = 63) := by
      rw [inlineTag, ← BitVec.twoPow_eq, BitVec.getLsbD_twoPow]
      simp [maxInlineBits, bitsInPointer, eq_comm]
    rw [cleanseInlineBits, BitVec.getLsbD_and, BitVec.getLsbD_not, htag]
    simp [hi]
  · rw [BitVec.getLsbD_of_ge _ _ (by omega), BitVec.getLsbD_of_ge _ _ (by omega), Bool.false_and]

theorem and_shift_ne_zero (x : Word) {k : Nat} (hk : k < 64) :
    (x &&& (1#64 <<< k) != 0) = x.getLsbD k := by
  rw [← BitVec.twoPow_eq, BitVec.and_twoPow]
  cases x.getLsbD k with
  | false => simp
  | true =>
    simp only [if_true, bne_iff_ne, ne_eq]
    intro hzero
    have hbit := congrArg (fun y : Word => y.getLsbD k) hzero
    simp [hk] at hbit

theorem quickGet_eq (v : BitVector) (i : Nat) : v.quickGet i = bit v.bits i := by
  have hmask : i &&& (bitsInPointer - 1) = i % 64 := Nat.and_two_pow_sub_one_eq_mod i 6
  rw [quickGet, hmask, and_shift_ne_zero _ (Nat.mod_lt i (by decide))]
  rfl

theorem size_inlineBits (x : Word) {tagged} : (inlineBits x tagged).size = 63 := rfl

theorem size_outOfLine (b : OutOfLineBits) : (outOfLine b).size = 64 * b.bits.length := rfl

/-- `get` reads the words without the tag. -/
theorem get_eq (v : BitVector) (i : Nat) : v.get i = bit v.members i := by
  rw [get, quickGet_eq]
  cases v with
  | inlineBits x tagged =>
    rw [size_inlineBits, members, bits]
    rcases Nat.lt_or_ge i 64 with hi | hi
    · rw [bit_singleton _ hi, bit_singleton _ hi, getLsbD_cleanse]
      split_ifs with hge
      · rw [decide_eq_false (by omega), Bool.and_false]
      · rw [decide_eq_true (by omega), Bool.and_true]
    · rw [if_pos (by omega), bit_singleton_of_le _ (by decide) hi]
  | outOfLine b =>
    rw [size_outOfLine, members, bits]
    split_ifs with hge
    · rw [bit_of_le (by omega)]
    · rfl

theorem numWords_eq (b : OutOfLineBits) : b.numWords = b.bits.length := by
  unfold OutOfLineBits.numWords OutOfLineBits.numBits bitsInPointer
  omega

/-! ## Set operations -/

theorem bitwise_or : Bitwise (fun x y : Word => x ||| y) (· || ·) :=
  fun _ _ _ _ => BitVec.getLsbD_or

theorem bitwise_and : Bitwise (fun x y : Word => x &&& y) (· && ·) :=
  fun _ _ _ _ => BitVec.getLsbD_and

theorem bitwise_andNot : Bitwise (fun x y : Word => x &&& ~~~y) (fun x y => x && !y) := by
  intro x y i hi
  rw [BitVec.getLsbD_and, BitVec.getLsbD_not]
  simp [hi]

/-- The words of `r` are those of `v` and `other`, combined. -/
def Combines (f : Word → Word → Word) (v other r : BitVector) : Prop :=
  ∀ k, word r.members k = f (word v.members k) (word other.members k)

variable {v other : BitVector} {f : Word → Word → Word} {p : Nat → Bool} {value : Bool}
  {start : Nat}

theorem Combines.get {g : Bool → Bool → Bool} (hf : Bitwise f g) {r : BitVector}
    (h : Combines f v other r) (i : Nat) :
    r.get i = g (v.get i) (other.get i) := by
  rw [get_eq, get_eq, get_eq]
  exact bit_of_word hf (by decide) h i

theorem ofWords_of_pos {words : List Word} (h : 0 < words.length) :
    ofWords words = some (outOfLine ⟨words, h⟩) := dif_pos h

theorem word_singleton (x : Word) (k : Nat) : word [x] k = if k = 0 then x else 0 := by
  split_ifs with hk
  · rw [hk]
    rfl
  · exact word_of_le (by rw [List.length_singleton]; omega)

/-- An operation on two inline words. -/
theorem combines_inline (hzero : f 0 0 = 0) {x y z : Word} {hx hy hz}
    (h : cleanseInlineBits z = f (cleanseInlineBits x) (cleanseInlineBits y)) :
    Combines f (inlineBits x hx) (inlineBits y hy) (inlineBits z hz) := by
  intro k
  simp only [members, word_singleton, h]
  split_ifs
  · rfl
  · exact hzero.symm

/-- The index of the loops over words and bits has 32 bits. -/
structure Countable (v other : BitVector) : Prop where
  left : v.bits.length < 2 ^ 32
  right : other.bits.length < 2 ^ 32
  bits : v.isInline ≠ other.isInline → v.size < 2 ^ 32 ∧ other.size < 2 ^ 32

theorem toUnsigned_of_lt {n : Nat} (h : n < 2 ^ 32) : toUnsigned n = n := Nat.mod_eq_of_lt h

/-- An operation on the first word only. -/
theorem withFirstWord_spec (a : OutOfLineBits) (f : Word → Word) :
    ∃ r, withFirstWord a f = some r ∧
      ∀ k, word r.members k = if k = 0 then f (word a.bits 0) else word a.bits k := by
  have hlength : 0 < (a.bits.set 0 (f (word a.bits 0))).length := by
    rw [List.length_set]
    exact a.nonempty
  exact ⟨_, ofWords_of_pos hlength, fun k => word_set _ a.nonempty _ k⟩

theorem withFirstWord_combines (hzero : ∀ x, f x 0 = x) (a : OutOfLineBits) (y : Word) (hy) :
    ∃ r, withFirstWord a (fun x => f x (cleanseInlineBits y)) = some r ∧
      Combines f (outOfLine a) (inlineBits y hy) r := by
  obtain ⟨r, hr, hword⟩ := withFirstWord_spec a fun x => f x (cleanseInlineBits y)
  refine ⟨r, hr, fun k => ?_⟩
  rw [hword, members_inlineBits, members_outOfLine, word_singleton]
  split_ifs with hk
  · rw [hk]
  · rw [hzero]

theorem combineLoop_combines (a b : OutOfLineBits) {n : Nat} (ha : n ≤ a.bits.length)
    (hb : n ≤ b.bits.length)
    (hrest : ∀ k, n ≤ k → f (word a.bits k) (word b.bits k) = word a.bits k) :
    ∃ r, (combineLoop f b.bits n a.bits).bind ofWords = some r ∧
      Combines f (outOfLine a) (outOfLine b) r := by
  obtain ⟨words, hwords, hlength, hword⟩ := combineLoop_of_le f b.bits ha hb
  have hpos : 0 < words.length := hlength ▸ a.nonempty
  refine ⟨_, by rw [hwords, Option.bind_some, ofWords_of_pos hpos], fun k => ?_⟩
  rw [members_outOfLine, members_outOfLine, members_outOfLine, hword]
  split_ifs with hk
  · rfl
  · rw [hrest k (by omega)]

/-- Growing keeps the members. -/
theorem resizedWords_spec (v : BitVector) {numBits : Nat} (h : v.size < numBits) :
    (v.resizedWords numBits).length = wordsFor numBits ∧
      ∀ k, word (v.resizedWords numBits) k = word v.members k := by
  have hzeros (words : List Word) (n k : Nat) :
      word (words ++ List.replicate n 0) k = word words k := word_append_zeros words n k
  cases v with
  | inlineBits x tagged =>
    rw [size_inlineBits] at h
    have hpos := wordsFor_pos h
    simp only [resizedWords, members]
    refine ⟨?_, fun k => hzeros [cleanseInlineBits x] _ k⟩
    rw [List.length_cons, List.length_replicate]
    omega
  | outOfLine b =>
    simp only [resizedWords, members, if_pos h]
    refine ⟨?_, fun k => hzeros b.bits _ k⟩
    rw [size_outOfLine] at h
    rw [List.length_append, List.length_replicate, wordsFor, bitsInPointer]
    omega

/-- The vectors that `merge` can take: it reads as many words of the other one as this one has. -/
def Mergeable (v other : BitVector) : Prop :=
  v.isInline = false → other.isInline = false → v.size ≤ other.size

/-- A vector that is not longer grows to the length of the other one. -/
theorem ensureSize_spec {b : OutOfLineBits} (hle : v.size ≤ (outOfLine b).size) :
    ∃ a, v.ensureSize (outOfLine b).size = outOfLine a ∧ a.bits.length = b.bits.length ∧
      ∀ k, word a.bits k = word v.members k := by
  have hpos := b.nonempty
  by_cases hsize : (outOfLine b).size ≤ v.size
  · cases v with
    | inlineBits x hx =>
      rw [size_inlineBits, size_outOfLine] at hsize
      omega
    | outOfLine a =>
      rw [size_outOfLine, size_outOfLine] at hle hsize
      exact ⟨a, dif_pos hsize, by omega, fun k => rfl⟩
  · obtain ⟨hlength, hword⟩ := v.resizedWords_spec (Nat.lt_of_not_le hsize)
    exact ⟨_, dif_neg hsize, hlength.trans (numWords_eq b), hword⟩

theorem mergeSlow_outOfLine (v : BitVector) {a b : OutOfLineBits}
    (ha : v.ensureSize (outOfLine b).size = outOfLine a) :
    v.merge (outOfLine b) =
      (combineLoop (· ||| ·) b.bits (toUnsigned a.numWords) a.bits).bind ofWords := by
  cases v <;> simp only [merge, mergeSlow, ha]

theorem merge_combines (hcount : Countable v other) (h : Mergeable v other) :
    ∃ r, v.merge other = some r ∧ Combines (· ||| ·) v other r := by
  cases other with
  | inlineBits y hy =>
    cases v with
    | inlineBits x hx =>
      refine ⟨_, rfl, combines_inline BitVec.or_zero ?_⟩
      refine BitVec.eq_of_getLsbD_eq fun i _ => ?_
      simp only [BitVec.getLsbD_or, getLsbD_cleanse, Bool.and_or_distrib_right]
    | outOfLine a => exact withFirstWord_combines (fun _ => BitVec.or_zero) a y hy
  | outOfLine b =>
    have hb : b.bits.length < 2 ^ 32 := hcount.right
    have hle : v.size ≤ (outOfLine b).size := by
      cases v with
      | inlineBits x hx => exact maxInlineBits_le_size _
      | outOfLine a => exact h rfl rfl
    obtain ⟨a, ha, hlength, hword⟩ := ensureSize_spec hle
    obtain ⟨r, hr, hcombines⟩ := @combineLoop_combines (· ||| ·) a b a.bits.length
      (Nat.le_refl _) (by omega) fun k hk => by
        rw [word_of_le (show b.bits.length ≤ k by omega)]
        exact BitVec.or_zero
    refine ⟨r, ?_, fun k => ?_⟩
    · rw [mergeSlow_outOfLine v ha, numWords_eq, toUnsigned_of_lt (by omega)]
      exact hr
    · rw [hcombines k, members_outOfLine, hword k]

/-- The other vector has too few words. -/
theorem merge_of_not_mergeable (hcount : Countable v other) (h : ¬Mergeable v other) :
    v.merge other = none := by
  simp only [Mergeable, Classical.not_imp, Nat.not_le] at h
  obtain ⟨hv, hother, hlt⟩ := h
  cases v with
  | inlineBits => cases hv
  | outOfLine a =>
    cases other with
    | inlineBits => cases hother
    | outOfLine b =>
      have ha : a.bits.length < 2 ^ 32 := hcount.left
      rw [mergeSlow_outOfLine (outOfLine a) (dif_pos (Nat.le_of_lt hlt)), numWords_eq,
        toUnsigned_of_lt ha]
      rw [size_outOfLine, size_outOfLine] at hlt
      rw [combineLoop_of_gt _ _ (by omega), Option.bind_none]

/-- The vectors that `filter` can take: with an inline one it only filters the first word. -/
def Filterable (v other : BitVector) : Prop :=
  v.isInline = false → other.isInline = true → ∀ i, 64 ≤ i → v.get i = false

theorem word_eq_zero_of_get {b : OutOfLineBits} (h : ∀ i, 64 ≤ i → (outOfLine b).get i = false)
    {k : Nat} (hk : k ≠ 0) : word b.bits k = 0 := by
  refine BitVec.eq_of_getLsbD_eq fun i hi => ?_
  have hbit := h (64 * k + i) (by omega)
  rw [get_eq, members_outOfLine, bit, Nat.mul_add_div (by decide), Nat.mul_add_mod,
    Nat.div_eq_of_lt hi, Nat.mod_eq_of_lt hi, Nat.add_zero] at hbit
  rw [hbit]
  exact BitVec.getLsbD_zero.symm

theorem members_ofWord (x : Word) : (ofWord x).members = [cleanseInlineBits (makeInlineBits x)] :=
  rfl

theorem getLsbD_cleanse_make (x : Word) (i : Nat) :
    (cleanseInlineBits (makeInlineBits x)).getLsbD i = (x.getLsbD i && decide (i ≠ 63)) := by
  rw [getLsbD_cleanse, makeInlineBits, BitVec.getLsbD_or]
  by_cases hlast : i = 63
  · rw [decide_eq_false (by omega), Bool.and_false, Bool.and_false]
  · have htag : inlineTag.getLsbD i = false := by
      rw [inlineTag, ← BitVec.twoPow_eq, BitVec.getLsbD_twoPow]
      simp [maxInlineBits, bitsInPointer, Ne.symm hlast]
    rw [htag, Bool.or_false]

/-- An operation on an inline word whose result is tagged again. -/
theorem ofWord_combines {g : Bool → Bool → Bool} (hf : Bitwise f g) (hg : ∀ y, g false y = false)
    (x y : Word) (hx) (other : BitVector)
    (hy : cleanseInlineBits y = cleanseInlineBits (word other.members 0)) :
    Combines f (inlineBits x hx) other (ofWord (f x y)) := by
  intro k
  rw [members_ofWord, members_inlineBits, word_singleton, word_singleton]
  refine BitVec.eq_of_getLsbD_eq fun i hi => ?_
  rw [hf _ _ i hi]
  split_ifs with hk
  · have hbit := congrArg (fun z : Word => z.getLsbD i) hy
    simp only [getLsbD_cleanse] at hbit
    rw [hk, getLsbD_cleanse_make, getLsbD_cleanse, hf _ _ i hi]
    by_cases hlast : i = 63
    · rw [decide_eq_false (by omega), Bool.and_false, Bool.and_false, hg]
    · rw [decide_eq_true hlast, Bool.and_true, Bool.and_true] at hbit
      rw [decide_eq_true hlast, Bool.and_true, Bool.and_true, hbit]
  · rw [show (0 : Word).getLsbD i = false from BitVec.getLsbD_zero, hg]

theorem cleanse_cleanse (x : Word) :
    cleanseInlineBits (cleanseInlineBits x) = cleanseInlineBits x := by
  refine BitVec.eq_of_getLsbD_eq fun i _ => ?_
  rw [getLsbD_cleanse, getLsbD_cleanse, Bool.and_assoc, Bool.and_self]

theorem filter_combines (hcount : Countable v other) (h : Filterable v other) :
    ∃ r, v.filter other = some r ∧ Combines (· &&& ·) v other r := by
  cases v with
  | inlineBits x hx =>
    cases other with
    | inlineBits y hy =>
      refine ⟨_, rfl, combines_inline BitVec.and_zero ?_⟩
      refine BitVec.eq_of_getLsbD_eq fun i _ => ?_
      simp only [BitVec.getLsbD_and, getLsbD_cleanse]
      cases decide (i ≠ 63) <;> simp
    | outOfLine b =>
      exact ⟨_, rfl, ofWord_combines bitwise_and Bool.false_and x _ hx (outOfLine b) rfl⟩
  | outOfLine a =>
    cases other with
    | inlineBits y hy =>
      obtain ⟨r, hr, hword⟩ := withFirstWord_spec a (· &&& cleanseInlineBits y)
      refine ⟨r, hr, fun k => ?_⟩
      rw [hword, members_outOfLine, members_inlineBits, word_singleton]
      split_ifs with hk
      · rw [hk]
      · rw [word_eq_zero_of_get (h rfl rfl) hk]
        exact BitVec.and_zero.symm
    | outOfLine b =>
      have ha : a.bits.length < 2 ^ 32 := hcount.left
      have hb : b.bits.length < 2 ^ 32 := hcount.right
      obtain ⟨words, hwords, hlength, hword⟩ := combineLoop_of_le (· &&& ·) b.bits
        (Nat.min_le_left a.bits.length b.bits.length) (Nat.min_le_right _ _)
      obtain ⟨cleared, hcleared, hlength', hword'⟩ := @clearLoop_of_lt 64 (2 ^ 32) a.bits.length
        b.bits.length words (by omega) (by omega)
      have hpos : 0 < cleared.length := by
        rw [hlength', hlength]
        exact a.nonempty
      refine ⟨outOfLine ⟨cleared, hpos⟩, ?_, fun k => ?_⟩
      · simp only [filter, filterSlow, numWords_eq, toUnsigned_of_lt hb,
          toUnsigned_of_lt (show min a.bits.length b.bits.length < 2 ^ 32 by omega), hwords,
          Option.bind_eq_bind, Option.bind_some, hcleared, ofWords_of_pos hpos]
      · rw [members_outOfLine, members_outOfLine, members_outOfLine, hword', hword]
        split_ifs with hge hlt
        · rw [word_of_le hge]
          exact BitVec.and_zero.symm
        · rfl
        · rw [word_of_le (show a.bits.length ≤ k by omega)]
          exact BitVec.zero_and.symm

theorem filterable_of_get {r : BitVector} (hr : v.filter other = some r)
    (hget : ∀ i, r.get i = (v.get i && other.get i)) : Filterable v other := by
  intro hv hother i hi
  cases v with
  | inlineBits => cases hv
  | outOfLine a =>
    cases other with
    | outOfLine => cases hother
    | inlineBits y hy =>
      obtain ⟨r', hr', hword⟩ := withFirstWord_spec a (· &&& cleanseInlineBits y)
      obtain rfl := Option.some.inj (hr'.symm.trans hr)
      have hbit := hget i
      rw [get_eq (inlineBits y hy), members_inlineBits, bit_singleton_of_le _ (by decide) hi,
        Bool.and_false, get_eq, bit, hword, if_neg (by omega)] at hbit
      rw [get_eq]
      exact hbit

theorem exclude_combines (hcount : Countable v other) :
    ∃ r, v.exclude other = some r ∧ Combines (fun x y => x &&& ~~~y) v other r := by
  cases v with
  | inlineBits x hx =>
    have hg (y : Bool) : (false && !y) = false := Bool.false_and _
    cases other with
    | inlineBits y hy =>
      exact ⟨_, rfl, ofWord_combines bitwise_andNot hg x y hx _ (cleanse_cleanse y).symm⟩
    | outOfLine b =>
      exact ⟨_, rfl, ofWord_combines bitwise_andNot hg x _ hx (outOfLine b) rfl⟩
  | outOfLine a =>
    have hzero (x : Word) : (fun x y : Word => x &&& ~~~y) x 0 = x := BitVec.and_allOnes
    cases other with
    | inlineBits y hy =>
      exact @withFirstWord_combines (fun x y => x &&& ~~~y) hzero a y hy
    | outOfLine b =>
      have ha : a.bits.length < 2 ^ 32 := hcount.left
      obtain ⟨r, hr, hcombines⟩ := @combineLoop_combines (fun x y => x &&& ~~~y) a b _
        (Nat.min_le_left _ _) (Nat.min_le_right _ _) fun k hk => by
          rcases Nat.le_total a.bits.length b.bits.length with hle | hle
          · rw [word_of_le (show a.bits.length ≤ k by omega)]
            exact BitVec.zero_and
          · rw [word_of_le (show b.bits.length ≤ k by omega)]
            exact hzero _
      refine ⟨r, ?_, hcombines⟩
      rw [exclude, excludeSlow, numWords_eq, numWords_eq, toUnsigned_of_lt (by omega)]
      · exact hr
      · simp

/-! ## Equality and hash -/

theorem get_eq_iff (v other : BitVector) :
    (∀ i, v.get i = other.get i) ↔ ∀ k, word v.members k = word other.members k := by
  constructor
  · intro h
    refine word_eq_of_bit fun i => ?_
    rw [← get_eq, ← get_eq, h]
  · intro h i
    rw [get_eq, get_eq, bit, bit, h]

theorem equalsSlowCaseSimple_iff (hv : v.size < 2 ^ 32) (hother : other.size < 2 ^ 32) :
    v.equalsSlowCaseSimple other = true ↔ ∀ i, v.get i = other.get i := by
  rw [equalsSlowCaseSimple, toUnsigned_of_lt (by omega), List.all_reverse, List.all_eq_true]
  simp only [List.mem_range, beq_iff_eq]
  constructor
  · intro h i
    rcases Nat.lt_or_ge i (max v.size other.size) with hi | hi
    · exact h i hi
    · rw [get, if_pos (by omega), get, if_pos (by omega)]
  · exact fun h i _ => h i

theorem equalsSlowCaseFast_iff (a b : OutOfLineBits) :
    equalsSlowCaseFast (outOfLine a) (outOfLine b) = true ↔
      ∀ k, word a.bits k = word b.bits k := by
  simp only [equalsSlowCaseFast, numWords_eq, Bool.and_eq_true, List.all_reverse, List.all_eq_true,
    List.mem_range, List.mem_range', beq_iff_eq]
  constructor
  · rintro ⟨hlong, hshort⟩ k
    rcases Nat.lt_or_ge k (min a.bits.length b.bits.length) with hk | hk
    · exact hshort k hk
    rcases Nat.lt_or_ge k (max a.bits.length b.bits.length) with hlt | hge
    · have hzero := hlong k ⟨k - min a.bits.length b.bits.length, by omega, by omega⟩
      split_ifs at hzero with hlonger
      · rw [hzero, word_of_le (by omega)]
      · rw [hzero, word_of_le (by omega)]
    · rw [word_of_le (by omega), word_of_le (by omega)]
  · intro h
    refine ⟨?_, fun k _ => h k⟩
    rintro k ⟨j, hj, rfl⟩
    split_ifs with hlonger
    · rw [← h, word_of_le (by omega)]
    · rw [h, word_of_le (by omega)]

theorem equals_iff (hcount : Countable v other) :
    v.equals other = true ↔ ∀ i, v.get i = other.get i := by
  cases v with
  | inlineBits x hx =>
    cases other with
    | inlineBits y hy =>
      rw [get_eq_iff, equals, beq_iff_eq]
      constructor
      · rintro rfl k
        rfl
      · intro h
        have hword := h 0
        rw [members_inlineBits, members_inlineBits, word_singleton, word_singleton, if_pos rfl,
          if_pos rfl] at hword
        refine BitVec.eq_of_getLsbD_eq fun i _ => ?_
        by_cases hlast : i = 63
        · rw [hlast]
          exact hx.trans hy.symm
        · have hbit := congrArg (fun z : Word => z.getLsbD i) hword
          simpa [getLsbD_cleanse, hlast] using hbit
    | outOfLine b =>
      have hsize := hcount.bits (by simp [isInline])
      exact equalsSlowCaseSimple_iff hsize.1 hsize.2
  | outOfLine a =>
    cases other with
    | inlineBits y hy =>
      have hsize := hcount.bits (by simp [isInline])
      exact equalsSlowCaseSimple_iff hsize.1 hsize.2
    | outOfLine b =>
      rw [get_eq_iff]
      exact equalsSlowCaseFast_iff a b

/-- The xor of the words below `n`. -/
def xorWords (words : List Word) (n : Nat) : Word :=
  (List.range n).reverse.foldl (fun result i => result ^^^ word words i) 0

theorem xorWords_of_le {words : List Word} {n : Nat} (h : words.length ≤ n) :
    xorWords words n = xorWords words words.length := by
  obtain ⟨d, rfl⟩ := Nat.exists_eq_add_of_le h
  clear h
  induction d with
  | zero => rfl
  | succ d ih =>
    rw [← ih, ← Nat.add_assoc, xorWords, List.range_succ, List.reverse_append,
      List.reverse_singleton, List.singleton_append, List.foldl_cons,
      word_of_le (Nat.le_add_right _ _)]
    rfl

theorem hash_eq (h : v.bits.length < 2 ^ 32) :
    v.hash = intHash (xorWords v.members v.members.length) := by
  cases v with
  | inlineBits x hx =>
    have hxor : xorWords [cleanseInlineBits x] 1 = cleanseInlineBits x := BitVec.zero_xor
    rw [members_inlineBits, List.length_singleton, hxor]
    rfl
  | outOfLine b =>
    have hb : b.bits.length < 2 ^ 32 := h
    rw [hash, hashSlowCase, numWords_eq, toUnsigned_of_lt hb]
    rfl

theorem hash_eq_of_get (hcount : Countable v other) (h : ∀ i, v.get i = other.get i) :
    v.hash = other.hash := by
  have hword : word v.members = word other.members := funext ((get_eq_iff v other).1 h)
  have hmax := @xorWords_of_le v.members (max v.members.length other.members.length)
    (Nat.le_max_left _ _)
  have hmax' := @xorWords_of_le other.members (max v.members.length other.members.length)
    (Nat.le_max_right _ _)
  rw [hash_eq hcount.left, hash_eq hcount.right, ← hmax, ← hmax', xorWords, xorWords, hword]

/-! ## Finding bits -/

/-- The first index from `start` on with this value, or `size` if there is none below it. -/
structure IsFirst (p : Nat → Bool) (size start : Nat) (value : Bool) (r : Nat) : Prop where
  le : r ≤ size
  found : r < size → start ≤ r ∧ p r = value
  before : ∀ j, start ≤ j → j < r → p j ≠ value

theorem IsFirst.unique {size r r' : Nat} (h : IsFirst p size start value r)
    (h' : IsFirst p size start value r') : r = r' := by
  rcases Nat.lt_trichotomy r r' with hlt | heq | hlt
  · obtain ⟨hstart, hvalue⟩ := h.found (Nat.lt_of_lt_of_le hlt h'.le)
    exact absurd hvalue (h'.before r hstart hlt)
  · exact heq
  · obtain ⟨hstart, hvalue⟩ := h'.found (Nat.lt_of_lt_of_le hlt h.le)
    exact absurd hvalue (h.before r' hstart hlt)

/-- The search goes on behind indices that do not have the value. -/
theorem IsFirst.skipTo {size next r : Nat} (h : IsFirst p size next value r) (hle : start ≤ next)
    (hp : ∀ j, start ≤ j → j < next → p j ≠ value) : IsFirst p size start value r where
  le := h.le
  found hr := by
    obtain ⟨hstart, hvalue⟩ := h.found hr
    exact ⟨Nat.le_trans hle hstart, hvalue⟩
  before j hj hlt := by
    rcases Nat.lt_or_ge j next with hnext | hnext
    · exact hp j hj hnext
    · exact h.before j hnext hlt

theorem IsFirst.skip {size r : Nat} (h : IsFirst p size (start + 1) value r)
    (hp : p start ≠ value) :
    IsFirst p size start value r := by
  refine h.skipTo (Nat.le_succ start) fun j hj hlt => ?_
  rwa [show j = start by omega]

theorem IsFirst.congr {q : Nat → Bool} {size r : Nat} (h : IsFirst p size start value r)
    (hpq : ∀ j < size, p j = q j) :
    IsFirst q size start value r where
  le := h.le
  found hr := by
    rw [← hpq r hr]
    exact h.found hr
  before j hj hlt := by
    rw [← hpq j (Nat.lt_of_lt_of_le hlt h.le)]
    exact h.before j hj hlt

theorem isFirst_of_le {size : Nat} (h : size ≤ start) :
    IsFirst p size start value size where
  le := Nat.le_refl _
  found hr := absurd hr (Nat.lt_irrefl _)
  before j hj hlt := by omega

theorem isFirst_self {size : Nat} (hlt : start < size) (h : p start = value) :
    IsFirst p size start value start where
  le := Nat.le_of_lt hlt
  found _ := ⟨Nat.le_refl _, h⟩
  before j hj hlt := by omega

theorem scanSimple_isFirst (v : BitVector) (value : Bool) {turns index : Nat}
    (hturns : v.size ≤ index + turns) :
    IsFirst v.get v.size index value (v.scanSimple value turns index) := by
  induction turns generalizing index with
  | zero => exact isFirst_of_le hturns
  | succ turns ih =>
    rw [scanSimple]
    split_ifs with hlt hget
    · exact isFirst_self hlt (beq_iff_eq.1 hget)
    · exact (ih (by omega)).skip (by simpa using hget)
    · exact isFirst_of_le (Nat.le_of_not_lt hlt)

theorem findBitSimple_isFirst (v : BitVector) (index : Nat) (value : Bool) :
    IsFirst v.get v.size index value (v.findBitSimple index value) :=
  v.scanSimple_isFirst value (by omega)

theorem and_one_eq_iff (x : Word) (value : Bool) :
    x &&& 1 = (BitVec.ofBool value).setWidth 64 ↔ x.getLsbD 0 = value := by
  have hone : x &&& 1 = (BitVec.ofBool (x.getLsbD 0)).setWidth 64 := by
    have hand := BitVec.and_twoPow x 0
    rw [BitVec.twoPow_zero] at hand
    rw [show (1 : Word) = 1#64 from rfl, hand]
    cases x.getLsbD 0 <;> rfl
  rw [hone]
  constructor
  · intro h
    have hbit := congrArg (fun z : Word => z.getLsbD 0) h
    cases hx : x.getLsbD 0 <;> cases value <;> simp_all
  · rintro rfl
    rfl

/-- A word is scanned up to `endIndex`. -/
theorem scanWord_isFirst (x : Word) (endIndex : Nat) (value : Bool) {turns index : Nat}
    (hturns : endIndex ≤ index + turns) :
    IsFirst x.getLsbD endIndex index value (scanWord endIndex value turns (x >>> index) index).2 ∧
      ((scanWord endIndex value turns (x >>> index) index).1 = true ↔
        (scanWord endIndex value turns (x >>> index) index).2 < endIndex) := by
  induction turns generalizing index with
  | zero => exact ⟨isFirst_of_le hturns, by simp [scanWord]⟩
  | succ turns ih =>
    have hbit : (x >>> index).getLsbD 0 = x.getLsbD index :=
      BitVec.getLsbD_ushiftRight x index 0
    rw [scanWord]
    split_ifs with hlt hfound
    · rw [and_one_eq_iff, hbit] at hfound
      exact ⟨isFirst_self hlt hfound, by simp [hlt]⟩
    · rw [and_one_eq_iff, hbit] at hfound
      have hrest := @ih (index + 1) (by omega)
      rw [BitVec.shiftRight_add] at hrest
      exact ⟨hrest.1.skip hfound, hrest.2⟩
    · exact ⟨isFirst_of_le (Nat.le_of_not_lt hlt), by simp⟩

theorem get_outOfLine (b : OutOfLineBits) (k : Nat) {j : Nat} (hj : j < 64) :
    (outOfLine b).get (64 * k + j) = (word b.bits k).getLsbD j := by
  rw [get_eq, members_outOfLine, bit, Nat.mul_add_div (by decide), Nat.mul_add_mod,
    Nat.div_eq_of_lt hj, Nat.mod_eq_of_lt hj, Nat.add_zero]

theorem getLsbD_skipValue (value : Bool) {j : Nat} (hj : j < 64) :
    (skipValue value).getLsbD j ≠ value := by
  cases value with
  | true =>
    rw [show skipValue true = 0#64 from rfl, BitVec.getLsbD_zero]
    exact Bool.false_ne_true
  | false =>
    rw [show skipValue false = BitVec.allOnes 64 from rfl, BitVec.getLsbD_allOnes,
      decide_eq_true hj]
    exact fun h => by cases h

/-- The loop over the words finds the first bit. -/
theorem findWord_isFirst (b : OutOfLineBits) (value : Bool) {turns wordIndex j : Nat}
    (hj : j < 64) (hturns : b.bits.length ≤ wordIndex + turns) :
    ∃ r, findWord b value turns wordIndex j = some r ∧
      IsFirst (outOfLine b).get (64 * b.bits.length) (64 * wordIndex + j) value r := by
  induction turns generalizing wordIndex j with
  | zero => exact ⟨_, rfl, isFirst_of_le (by omega)⟩
  | succ turns ih =>
    rw [findWord, numWords_eq]
    by_cases hlt : wordIndex < b.bits.length
    swap
    · rw [if_neg hlt]
      exact ⟨_, rfl, isFirst_of_le (by omega)⟩
    rw [if_pos hlt]
    dsimp only
    by_cases hword : word b.bits wordIndex ≠ skipValue value
    · rw [if_pos hword]
      obtain ⟨hscan, hfound⟩ := scanWord_isFirst (word b.bits wordIndex) 64 value
        (show 64 ≤ j + (64 - j) by omega)
      have hin : findBitInWord (word b.bits wordIndex) j bitsInPointer value =
          some (scanWord 64 value (64 - j) (word b.bits wordIndex >>> j) j) := if_pos hj
      simp only [hin]
      obtain ⟨found, index, heq⟩ : ∃ found index, scanWord 64 value (64 - j)
        (word b.bits wordIndex >>> j) j = (found, index) := ⟨_, _, rfl⟩
      rw [heq] at hscan hfound ⊢
      cases found with
      | true =>
        have hindex := hfound.1 rfl
        obtain ⟨hstart, hvalue⟩ := hscan.found hindex
        refine ⟨_, rfl, (isFirst_self ?_ ?_).skipTo ?_ fun i hi hi' => ?_⟩
        · rw [bitsInPointer]
          omega
        · rw [bitsInPointer, Nat.mul_comm wordIndex, get_outOfLine b wordIndex hindex, hvalue]
        · rw [bitsInPointer]
          omega
        · rw [bitsInPointer] at hi'
          rw [show i = 64 * wordIndex + (i - 64 * wordIndex) by omega,
            get_outOfLine b wordIndex (by omega)]
          exact hscan.before _ (by omega) (by omega)
      | false =>
        have hindex : index = 64 := by
          have hle := hscan.le
          have hnot := mt hfound.2 Bool.false_ne_true
          omega
        obtain ⟨r, hr, hrest⟩ := @ih (wordIndex + 1) 0 (by decide) (by omega)
        refine ⟨r, hr, hrest.skipTo (by omega) fun i hi hi' => ?_⟩
        rw [show i = 64 * wordIndex + (i - 64 * wordIndex) by omega,
          get_outOfLine b wordIndex (by omega)]
        exact hscan.before _ (by omega) (by omega)
    · rw [if_neg hword]
      obtain ⟨r, hr, hrest⟩ := @ih (wordIndex + 1) 0 (by decide) (by omega)
      refine ⟨r, hr, hrest.skipTo (by omega) fun i hi hi' => ?_⟩
      rw [show i = 64 * wordIndex + (i - 64 * wordIndex) by omega,
        get_outOfLine b wordIndex (by omega), not_not.1 hword]
      exact getLsbD_skipValue value (by omega)

/-- An inline word is shifted by the start index, which must be less than its width. -/
theorem findBitFast_eq_iff (v : BitVector) (start : Nat) (value : Bool) :
    v.findBitFast start value = some (v.findBitSimple start value) ↔
      (v.isInline = true → start < 64) := by
  have hsimple := v.findBitSimple_isFirst start value
  cases v with
  | inlineBits x hx =>
    by_cases hstart : start < 64
    · have hin : findBitInWord x start maxInlineBits value =
          some (scanWord 63 value (63 - start) (x >>> start) start) := if_pos hstart
      have hscan := (scanWord_isFirst x 63 value (show 63 ≤ start + (63 - start) by omega)).1
      have hget (j : Nat) (hj : j < 63) : x.getLsbD j = (inlineBits x hx).get j := by
        rw [get_eq, members_inlineBits, bit_singleton _ (by omega), getLsbD_cleanse,
          decide_eq_true (by omega), Bool.and_true]
      rw [findBitFast, hin, Option.map_some, (hscan.congr hget).unique hsimple]
      exact ⟨fun _ _ => hstart, fun _ => rfl⟩
    · have hin : findBitInWord x start maxInlineBits value = none := if_neg hstart
      rw [findBitFast, hin]
      exact ⟨fun h => (by cases h), fun h => absurd (h rfl) hstart⟩
  | outOfLine b =>
    obtain ⟨r, hr, hfirst⟩ := @findWord_isFirst b value (b.numWords - start / 64) (start / 64)
      (start - start / 64 * 64) (by omega) (by rw [numWords_eq]; omega)
    rw [show 64 * (start / 64) + (start - start / 64 * 64) = start by omega] at hfirst
    have hfast : (outOfLine b).findBitFast start value = some r := hr
    rw [hfast, hfirst.unique hsimple]
    exact ⟨fun _ h => (by cases h), fun _ => rfl⟩

/-! ## All of it -/

section

variable {v other : BitVector}

theorem merge_union_iff (hcount : Countable v other) :
    (∃ r, v.merge other = some r ∧ ∀ i, r.get i = (v.get i || other.get i)) ↔
      Mergeable v other := by
  constructor
  · rintro ⟨r, hr, -⟩
    by_contra hnot
    rw [merge_of_not_mergeable hcount hnot] at hr
    cases hr
  · intro hmerge
    obtain ⟨r, hr, hor⟩ := merge_combines hcount hmerge
    exact ⟨r, hr, hor.get bitwise_or⟩

theorem filter_intersection_iff (hcount : Countable v other) :
    (∃ r, v.filter other = some r ∧ ∀ i, r.get i = (v.get i && other.get i)) ↔
      Filterable v other := by
  constructor
  · rintro ⟨r, hr, hget⟩
    exact filterable_of_get hr hget
  · intro hfilter
    obtain ⟨r, hr, hand⟩ := filter_combines hcount hfilter
    exact ⟨r, hr, hand.get bitwise_and⟩

theorem exclude_difference (hcount : Countable v other) :
    ∃ r, v.exclude other = some r ∧ ∀ i, r.get i = (v.get i && !other.get i) := by
  obtain ⟨r, hr, handNot⟩ := exclude_combines hcount
  exact ⟨r, hr, handNot.get bitwise_andNot⟩

end

/-- What is expected of two vectors and a start index. -/
structure ActsAsSets (v other : BitVector) (start : Nat) (value : Bool) : Prop where
  merge : ∃ r, v.merge other = some r ∧ ∀ i, r.get i = (v.get i || other.get i)
  filter : ∃ r, v.filter other = some r ∧ ∀ i, r.get i = (v.get i && other.get i)
  exclude : ∃ r, v.exclude other = some r ∧ ∀ i, r.get i = (v.get i && !other.get i)
  equals : v.equals other = true ↔ ∀ i, v.get i = other.get i
  hash : v.equals other = true → v.hash = other.hash
  findBit : v.findBitFast start value = some (v.findBitSimple start value)

/-- As long as the loops can count their words and bits, bit vectors are sets except for a `merge`
with a shorter vector, a `filter` of later words with an inline vector and a search in an inline
vector from behind its word. -/
theorem bitVector_actsAsSets_iff (v other : BitVector) (start : Nat) (value : Bool)
    (hcount : Countable v other) :
    ActsAsSets v other start value ↔
      Mergeable v other ∧ Filterable v other ∧ (v.isInline = true → start < 64) := by
  constructor
  · intro h
    exact ⟨(merge_union_iff hcount).1 h.merge, (filter_intersection_iff hcount).1 h.filter,
      (findBitFast_eq_iff v start value).1 h.findBit⟩
  · rintro ⟨hmerge, hfilter, hstart⟩
    have hequals := equals_iff hcount
    exact {
      merge := (merge_union_iff hcount).2 hmerge
      filter := (filter_intersection_iff hcount).2 hfilter
      exclude := exclude_difference hcount
      equals := hequals
      hash := fun h => hash_eq_of_get hcount (hequals.1 h)
      findBit := (findBitFast_eq_iff v start value).2 hstart }

/-- A vector of two words and an inline one. -/
theorem bitVector_actsAsSets_sample :
    ActsAsSets (ofWord 5) (outOfLine ⟨[4, 8], by decide⟩) 2 true :=
  (bitVector_actsAsSets_iff _ _ 2 true ⟨by decide, by decide, fun _ => by decide⟩).2
    ⟨fun h => (by cases h), fun h => (by cases h), fun _ => by decide⟩

/-- The word that `merge` reads behind the end of a shorter vector, and the bit that `filter` leaves
in a vector that is filtered with an inline one. -/
theorem bitVector_merge_reads_beyond :
    merge (outOfLine ⟨[0, 0], by decide⟩) (outOfLine ⟨[1], by decide⟩) = none ∧
      ∃ r, filter (outOfLine ⟨[0, 1], by decide⟩) (ofWord 0) = some r ∧ r.get 64 = true ∧
        (ofWord 0).get 64 = false := by
  refine ⟨rfl, outOfLine ⟨[0, 1], by decide⟩, rfl, by decide, by decide⟩

/-! ## Iterating over the set bits -/

/-- A loop over `setBits()` from the iterator at `index` on: the bits it visits. It does not end if
`operator++` misses `end()`. -/
def setBitsLoop (v : BitVector) : Nat → Nat → Option (List Nat)
  | 0, index => if index = v.size then some [] else none
  | turns + 1, index =>
    if index = v.size then some []
    else do
      let next ← v.findBitFast (index + 1) true
      let visited ← setBitsLoop v turns next
      some (index :: visited)

def setBits (v : BitVector) : Option (List Nat) := do
  let first ← v.findBitFast 0 true
  setBitsLoop v v.size first

/-- The bits from `start` on. -/
def bitsFrom (v : BitVector) (start : Nat) : List Nat :=
  (List.range' start (v.size - start)).filter v.get

theorem bitsFrom_of_isFirst {r : Nat} (h : IsFirst v.get v.size start true r) :
    v.bitsFrom start = if r = v.size then [] else r :: v.bitsFrom (r + 1) := by
  unfold bitsFrom
  obtain ⟨n, hn⟩ : ∃ n, v.size - start = n := ⟨_, rfl⟩
  rw [hn]
  induction n generalizing start with
  | zero =>
    have hr : ¬r < v.size := fun hlt => by have := (h.found hlt).1; omega
    rw [if_pos (Nat.le_antisymm h.le (Nat.not_lt.mp hr))]
    rfl
  | succ n ih =>
    rw [List.range'_succ]
    by_cases hr : r = start
    · subst hr
      rw [if_neg (by omega), List.filter_cons_of_pos (h.found (by omega)).2,
        show v.size - (r + 1) = n by omega]
    · have hlt : start < r := by
        rcases Nat.lt_or_ge r v.size with hsize | hsize
        · have := (h.found hsize).1
          omega
        · omega
      rw [List.filter_cons_of_neg (h.before start (Nat.le_refl _) hlt)]
      refine ih ⟨h.le, fun hsize => ⟨hlt, (h.found hsize).2⟩, fun j hj => ?_⟩ (by omega)
      exact h.before j (by omega)

/-- A loop over `setBits()` ends and visits the members of the set, each one once and in increasing
order, whatever the representation. -/
theorem setBits_eq (v : BitVector) : v.setBits = some ((List.range v.size).filter v.get) := by
  have find {start : Nat} (hle : start ≤ v.size) :
      ∃ r, v.findBitFast start true = some r ∧ IsFirst v.get v.size start true r := by
    refine ⟨_, (v.findBitFast_eq_iff start true).mpr fun hinline => ?_,
      v.findBitSimple_isFirst start true⟩
    cases v with
    | inlineBits => exact Nat.lt_succ_of_le hle
    | outOfLine => cases hinline
  have loop {turns start index : Nat} (hturns : v.size ≤ index + turns)
      (h : IsFirst v.get v.size start true index) :
      setBitsLoop v turns index = some (v.bitsFrom start) := by
    induction turns generalizing start index with
    | zero =>
      have hend : index = v.size := Nat.le_antisymm h.le hturns
      rw [setBitsLoop, bitsFrom_of_isFirst h, if_pos hend, if_pos hend]
    | succ turns ih =>
      rw [setBitsLoop, bitsFrom_of_isFirst h]
      split_ifs with hend
      · rfl
      · have hlt := Nat.lt_of_le_of_ne h.le hend
        obtain ⟨next, hnext, hfirst⟩ := find hlt
        have hgt : index < next := by
          rcases Nat.lt_or_ge next v.size with hsize | hsize
          · exact (hfirst.found hsize).1
          · omega
        rw [hnext, Option.bind_eq_bind, Option.bind_some, ih (by omega) hfirst]
        rfl
  obtain ⟨first, hfirst, h⟩ := find (Nat.zero_le _)
  rw [setBits, hfirst, Option.bind_eq_bind, Option.bind_some,
    loop (Nat.le_add_left _ _) h, bitsFrom, Nat.sub_zero, List.range_eq_range']

end Odyssey.WTF.BitVector
