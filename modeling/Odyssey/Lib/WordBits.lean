import Mathlib.Data.List.Basic

/-!
# Sets of naturals in words

A list of words of the same width holds a finite set of naturals: the bits of the words, one after
the other. Loops that go down over the words combine two such sets.
-/
namespace Odyssey.Lib.WordBits

variable {w : Nat}

/-- A word of the list; there are only zeros beyond its end. -/
def word (words : List (BitVec w)) (k : Nat) : BitVec w := words.getD k 0

def bit (words : List (BitVec w)) (i : Nat) : Bool := (word words (i / w)).getLsbD (i % w)

theorem word_of_le {words : List (BitVec w)} {k : Nat} (h : words.length ≤ k) :
    word words k = 0 := by
  rw [word, List.getD_eq_getElem?_getD, List.getElem?_eq_none h, Option.getD_none]

theorem getElem?_of_lt {words : List (BitVec w)} {k : Nat} (h : k < words.length) :
    words[k]? = some (word words k) := by
  rw [word, List.getD_eq_getElem?_getD, List.getElem?_eq_getElem h, Option.getD_some]

theorem word_set (words : List (BitVec w)) {k : Nat} (h : k < words.length) (x : BitVec w)
    (j : Nat) : word (words.set k x) j = if j = k then x else word words j := by
  simp only [word, List.getD_eq_getElem?_getD]
  split_ifs with hj
  · rw [hj, List.getElem?_set_self h, Option.getD_some]
  · rw [List.getElem?_set_ne (Ne.symm hj)]

theorem bit_of_le {words : List (BitVec w)} {i : Nat} (h : words.length ≤ i / w) :
    bit words i = false := by
  rw [bit, word_of_le h]
  exact BitVec.getLsbD_zero

/-- The words of a set of bits. -/
theorem word_eq_of_bit {a b : List (BitVec w)} (h : ∀ i, bit a i = bit b i) (k : Nat) :
    word a k = word b k := by
  refine BitVec.eq_of_getLsbD_eq fun i hi => ?_
  have hbit := h (k * w + i)
  have hpos : 0 < w := Nat.zero_lt_of_lt hi
  rwa [bit, bit, Nat.mul_comm k w, Nat.mul_add_div hpos, Nat.mul_add_mod, Nat.div_eq_of_lt hi,
    Nat.mod_eq_of_lt hi, Nat.add_zero] at hbit

theorem word_append_zeros (words : List (BitVec w)) (n k : Nat) :
    word (words ++ List.replicate n 0) k = word words k := by
  simp only [word, List.getD_eq_getElem?_getD]
  rcases Nat.lt_or_ge k words.length with h | h
  · rw [List.getElem?_append_left h]
  · rw [List.getElem?_append_right h, List.getElem?_replicate, List.getElem?_eq_none h]
    split_ifs <;> rfl

/-- An operation on words that works bit by bit. -/
def Bitwise (f : BitVec w → BitVec w → BitVec w) (g : Bool → Bool → Bool) : Prop :=
  ∀ x y i, i < w → (f x y).getLsbD i = g (x.getLsbD i) (y.getLsbD i)

theorem bit_of_word {f : BitVec w → BitVec w → BitVec w} {g : Bool → Bool → Bool}
    (hf : Bitwise f g) (hw : 0 < w) {a b r : List (BitVec w)}
    (h : ∀ k, word r k = f (word a k) (word b k)) (i : Nat) : bit r i = g (bit a i) (bit b i) := by
  rw [bit, h, hf _ _ _ (Nat.mod_lt i hw), bit, bit]

theorem bit_singleton (x : BitVec w) {i : Nat} (hi : i < w) : bit [x] i = x.getLsbD i := by
  rw [bit, Nat.div_eq_of_lt hi, Nat.mod_eq_of_lt hi]
  rfl

theorem bit_singleton_of_le (x : BitVec w) {i : Nat} (hw : 0 < w) (hi : w ≤ i) :
    bit [x] i = false :=
  bit_of_le (Nat.div_pos hi hw)

/-! ## Loops over the words -/

section
variable (f : BitVec w → BitVec w → BitVec w) (b : List (BitVec w))

/-- Combine the words below `n` with those of `b`, from the last one on. A result of `none` is a
word that does not exist. -/
def combineLoop : Nat → List (BitVec w) → Option (List (BitVec w))
  | 0, a => some a
  | n + 1, a => do
    let x ← a[n]?
    let y ← b[n]?
    combineLoop n (a.set n (f x y))

theorem combineLoop_of_le {n : Nat} {a : List (BitVec w)} (ha : n ≤ a.length) (hb : n ≤ b.length) :
    ∃ r, combineLoop f b n a = some r ∧ r.length = a.length ∧
      ∀ k, word r k = if k < n then f (word a k) (word b k) else word a k := by
  induction n generalizing a with
  | zero => exact ⟨a, rfl, rfl, fun k => (if_neg (Nat.not_lt_zero k)).symm⟩
  | succ n ih =>
    obtain ⟨r, hr, hlength, hword⟩ := @ih (a.set n (f (word a n) (word b n)))
      (by rw [List.length_set]; omega) (by omega)
    refine ⟨r, ?_, by rw [hlength, List.length_set], fun k => ?_⟩
    · rw [combineLoop, getElem?_of_lt (by omega), getElem?_of_lt (by omega)]
      exact hr
    · rw [hword, word_set _ (by omega)]
      by_cases hk : k = n
      · rw [if_neg (by omega), if_pos hk, if_pos (by omega), hk]
      · rw [if_neg hk]
        exact if_congr (by omega) rfl rfl

theorem combineLoop_of_gt {n : Nat} {a : List (BitVec w)} (hb : b.length < n) :
    combineLoop f b n a = none := by
  obtain ⟨n, rfl⟩ : ∃ m, n = m + 1 := ⟨n - 1, by omega⟩
  rw [combineLoop, List.getElem?_eq_none (show b.length ≤ n by omega)]
  cases a[n]? <;> rfl

end

/-- Clear the words from `i` on, with an index that wraps. -/
def clearLoop (modulus : Nat) : Nat → Nat → List (BitVec w) → Option (List (BitVec w))
  | 0, i, a => if i < a.length then none else some a
  | turns + 1, i, a =>
    if i < a.length then clearLoop modulus turns ((i + 1) % modulus) (a.set i 0) else some a

theorem clearLoop_of_lt {modulus turns i : Nat} {a : List (BitVec w)} (ha : a.length < modulus)
    (hturns : a.length ≤ i + turns) :
    ∃ r, clearLoop modulus turns i a = some r ∧ r.length = a.length ∧
      ∀ k, word r k = if i ≤ k then 0 else word a k := by
  induction turns generalizing i a with
  | zero =>
    refine ⟨a, if_neg (by omega), rfl, fun k => ?_⟩
    split_ifs with hk
    · exact word_of_le (by omega)
    · rfl
  | succ turns ih =>
    rw [clearLoop]
    split_ifs with hi
    · rw [Nat.mod_eq_of_lt (by omega)]
      obtain ⟨r, hr, hlength, hword⟩ := @ih (i + 1) (a.set i 0) (by rwa [List.length_set])
        (by rw [List.length_set]; omega)
      refine ⟨r, hr, by rw [hlength, List.length_set], fun k => ?_⟩
      rw [hword, word_set _ hi]
      by_cases hk : k = i
      · rw [if_neg (by omega), if_pos hk, if_pos (by omega)]
      · rw [if_neg hk]
        exact if_congr (by omega) rfl rfl
    · refine ⟨a, rfl, rfl, fun k => ?_⟩
      split_ifs with hk
      · exact word_of_le (by omega)
      · rfl

end Odyssey.Lib.WordBits
