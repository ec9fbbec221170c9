import Mathlib.Data.List.Basic
import Mathlib.Order.Basic
import Mathlib.Order.Lattice

/-!
# Ordered maps as lists

The entries of an ordered map in the order of their keys. A position is an index into the list, and
the length of the list is the position past the end.
-/
namespace Odyssey.Lib

variable {α β : Type} [LinearOrder β] {key : α → β} {l : List α}

/-- The keys of the list increase. -/
def Ascending (key : α → β) (l : List α) : Prop := l.Pairwise fun a b => key a < key b

namespace Ascending

theorem lt_iff (h : Ascending key l) {i j : Nat} (hi : i < l.length) (hj : j < l.length) :
    key l[i] < key l[j] ↔ i < j := by
  have increasing := List.pairwise_iff_getElem.mp h
  constructor
  · intro hlt
    by_contra hji
    rcases Nat.lt_or_eq_of_le (Nat.le_of_not_lt hji) with hji | rfl
    · exact absurd (increasing j i hj hi hji) (lt_asymm hlt)
    · exact lt_irrefl _ hlt
  · exact increasing i j hi hj

theorem eq_of_key_eq (h : Ascending key l) {a b : α} (ha : a ∈ l) (hb : b ∈ l)
    (e : key a = key b) : a = b := by
  obtain ⟨i, hi, rfl⟩ := List.getElem_of_mem ha
  obtain ⟨j, hj, rfl⟩ := List.getElem_of_mem hb
  rcases Nat.lt_trichotomy i j with hij | rfl | hij
  · exact absurd ((h.lt_iff hi hj).mpr hij) (by rw [e]; exact lt_irrefl _)
  · rfl
  · exact absurd ((h.lt_iff hj hi).mpr hij) (by rw [e]; exact lt_irrefl _)

theorem filter (h : Ascending key l) (p : α → Bool) : Ascending key (l.filter p) :=
  h.sublist List.filter_sublist

end Ascending

/-- The first position whose key is not below `k`. -/
def lowerBound (key : α → β) (k : β) (l : List α) : Nat := l.findIdx fun a => decide (k ≤ key a)

theorem lowerBound_le_length (k : β) : lowerBound key k l ≤ l.length := List.findIdx_le_length

variable {a : α} {k : β}

theorem lt_lowerBound_iff (h : Ascending key l) {i : Nat} (hi : i < l.length) :
    i < lowerBound key k l ↔ key l[i] < k := by
  unfold lowerBound
  constructor
  · intro hlt
    have := List.not_of_lt_findIdx hlt
    simpa using this
  · intro hlt
    by_contra hle
    have found := List.findIdx_getElem (w := lt_of_le_of_lt (Nat.le_of_not_lt hle) hi)
    rw [decide_eq_true_eq] at found
    generalize l.findIdx (fun a => decide (k ≤ key a)) = m at hle found
    rcases Nat.lt_or_eq_of_le (Nat.le_of_not_lt hle) with hij | rfl
    · exact absurd ((h.lt_iff _ hi).mpr hij) (not_lt.mpr (hlt.le.trans found))
    · exact absurd hlt (not_lt.mpr found)

/-- The entries between two positions. -/
def range (i j : Nat) (l : List α) : List α := (l.drop i).take (j - i)

theorem mem_range {i j : Nat} :
    a ∈ range i j l ↔ ∃ k, ∃ hk : k < l.length, i ≤ k ∧ k < j ∧ l[k] = a := by
  unfold range
  constructor
  · intro h
    obtain ⟨n, hn, rfl⟩ := List.getElem_of_mem h
    simp only [List.length_take, List.length_drop] at hn
    exact ⟨i + n, by omega, by omega, by omega, by simp⟩
  · rintro ⟨k, hk, hik, hkj, rfl⟩
    refine List.mem_iff_getElem.mpr ⟨k - i, by simp; omega, ?_⟩
    simp [Nat.add_sub_cancel' hik]

theorem range_sublist (i j : Nat) (l : List α) : (range i j l).Sublist l :=
  (List.take_sublist _ _).trans (List.drop_sublist _ _)

theorem mem_range_lowerBound (h : Ascending key l) {k' : β} :
    a ∈ range (lowerBound key k l) (lowerBound key k' l) l ↔ a ∈ l ∧ k ≤ key a ∧ key a < k' := by
  rw [mem_range]
  constructor
  · rintro ⟨i, hi, hle, hlt, rfl⟩
    rw [lt_lowerBound_iff h hi] at hlt
    rw [← not_lt, lt_lowerBound_iff h hi, not_lt] at hle
    exact ⟨List.getElem_mem hi, hle, hlt⟩
  · rintro ⟨ha, hle, hlt⟩
    obtain ⟨i, hi, rfl⟩ := List.getElem_of_mem ha
    exact ⟨i, hi, not_lt.mp fun hlt => absurd ((lt_lowerBound_iff h hi).mp hlt) (not_lt.mpr hle),
      (lt_lowerBound_iff h hi).mpr hlt, rfl⟩

theorem mem_range_length (h : Ascending key l) :
    a ∈ range (lowerBound key k l) l.length l ↔ a ∈ l ∧ k ≤ key a := by
  rw [mem_range]
  constructor
  · rintro ⟨i, hi, hle, -, rfl⟩
    rw [← not_lt, lt_lowerBound_iff h hi, not_lt] at hle
    exact ⟨List.getElem_mem hi, hle⟩
  · rintro ⟨ha, hle⟩
    obtain ⟨i, hi, rfl⟩ := List.getElem_of_mem ha
    exact ⟨i, hi, not_lt.mp fun hlt => absurd ((lt_lowerBound_iff h hi).mp hlt) (not_lt.mpr hle),
      hi, rfl⟩

/-- The entry at a lower bound is the first one from that key on. -/
theorem first_of_getElem?_lowerBound (h : Ascending key l)
    (found : l[lowerBound key k l]? = some a) :
    a ∈ l ∧ k ≤ key a ∧ ∀ b ∈ l, k ≤ key b → key a ≤ key b := by
  obtain ⟨hi, rfl⟩ := List.getElem?_eq_some_iff.mp found
  refine ⟨List.getElem_mem hi, not_lt.mp fun hlt => ?_, fun b hb hle => ?_⟩
  · exact lt_irrefl _ ((lt_lowerBound_iff h hi).mpr hlt)
  · obtain ⟨j, hj, rfl⟩ := List.getElem_of_mem hb
    refine not_lt.mp fun hlt => ?_
    have := (lt_lowerBound_iff h hj).mp ((h.lt_iff hj hi).mp hlt)
    exact absurd hle (not_le.mpr this)

theorem lowerBound_key (h : Ascending key l) {i : Nat} (ha : l[i]? = some a) :
    lowerBound key (key a) l = i := by
  obtain ⟨hi, rfl⟩ := List.getElem?_eq_some_iff.mp ha
  refine le_antisymm (not_lt.mp fun hlt => ?_) (not_lt.mp fun hlt => ?_)
  · exact lt_irrefl _ ((lt_lowerBound_iff h hi).mp hlt)
  · have hj := hlt.trans hi
    exact lt_irrefl _ ((lt_lowerBound_iff h hj).mpr ((h.lt_iff hj hi).mpr hlt))

theorem getElem?_lowerBound_key (h : Ascending key l) (ha : a ∈ l) :
    l[lowerBound key (key a) l]? = some a := by
  obtain ⟨i, hi, rfl⟩ := List.getElem_of_mem ha
  rw [lowerBound_key h (List.getElem?_eq_getElem hi), List.getElem?_eq_getElem hi]

theorem lowerBound_lt_iff (h : Ascending key l) (ha : a ∈ l) :
    lowerBound key (key a) l < lowerBound key k l ↔ key a < k := by
  obtain ⟨i, hi, rfl⟩ := List.getElem_of_mem ha
  rw [lowerBound_key h (List.getElem?_eq_getElem hi), lt_lowerBound_iff h hi]

theorem lt_key_of_lowerBound_eq_length (h : Ascending key l)
    (past : l[lowerBound key k l]? = none) (ha : a ∈ l) : key a < k := by
  obtain ⟨i, hi, rfl⟩ := List.getElem_of_mem ha
  exact (lt_lowerBound_iff h hi).mp (lt_of_lt_of_le hi (List.getElem?_eq_none_iff.mp past))

/-! ## Searching from a position on -/

/-- The first position from `i` on whose entry satisfies `p`. -/
def findFrom (p : α → Bool) (i : Nat) (l : List α) : Nat := i + (l.drop i).findIdx p

theorem not_of_lt_findFrom {p : α → Bool} {i j : Nat} (hj : j < l.length) (hij : i ≤ j)
    (before : j < findFrom p i l) : p l[j] = false := by
  unfold findFrom at before
  have hlt : j - i < (l.drop i).findIdx p := by omega
  have := List.not_of_lt_findIdx hlt
  simpa [Nat.add_sub_cancel' hij] using this

/-- The entry that is found is the first one from the given key on that satisfies `p`. -/
theorem first_of_findFrom (h : Ascending key l) {p : α → Bool}
    (found : l[findFrom p (lowerBound key k l) l]? = some a) :
    a ∈ l ∧ p a = true ∧ k ≤ key a ∧ ∀ b ∈ l, p b = true → k ≤ key b → key a ≤ key b := by
  obtain ⟨hi, rfl⟩ := List.getElem?_eq_some_iff.mp found
  have from_ : lowerBound key k l ≤ findFrom p (lowerBound key k l) l := Nat.le_add_right _ _
  refine ⟨List.getElem_mem hi, ?_, not_lt.mp fun hlt => ?_, fun b hb hp hle => ?_⟩
  · have hn : (l.drop (lowerBound key k l)).findIdx p < (l.drop (lowerBound key k l)).length := by
      unfold findFrom at hi
      rw [List.length_drop]
      omega
    have := List.findIdx_getElem (w := hn)
    simpa [findFrom] using this
  · have := (lt_lowerBound_iff h hi).mpr hlt
    omega
  · obtain ⟨j, hj, rfl⟩ := List.getElem_of_mem hb
    refine not_lt.mp fun hlt => ?_
    have hij : lowerBound key k l ≤ j :=
      not_lt.mp fun hlt => absurd hle (not_le.mpr ((lt_lowerBound_iff h hj).mp hlt))
    have := not_of_lt_findFrom hj hij ((h.lt_iff hj hi).mp hlt)
    rw [hp] at this
    cases this

theorem not_of_findFrom (h : Ascending key l) {p : α → Bool}
    (past : l[findFrom p (lowerBound key k l) l]? = none) {b : α} (hb : b ∈ l) (hle : k ≤ key b) :
    p b = false := by
  obtain ⟨j, hj, rfl⟩ := List.getElem_of_mem hb
  have hij : lowerBound key k l ≤ j :=
    not_lt.mp fun hlt => absurd hle (not_le.mpr ((lt_lowerBound_iff h hj).mp hlt))
  exact not_of_lt_findFrom hj hij (lt_of_lt_of_le hj (List.getElem?_eq_none_iff.mp past))

/-! ## The least element -/

/-- The first of the elements with the least value. -/
def minElement (value : α → β) : List α → Option α
  | [] => none
  | a :: l => some (l.foldl (fun m b => if value b < value m then b else m) a)

theorem foldl_min (value : α → β) (m : α) (l : List α) :
    ∃ before after,
      m :: l = before ++ l.foldl (fun m b => if value b < value m then b else m) m :: after ∧
      (∀ b ∈ before, value (l.foldl (fun m b => if value b < value m then b else m) m) < value b) ∧
      ∀ b ∈ after, value (l.foldl (fun m b => if value b < value m then b else m) m) ≤ value b := by
  induction l generalizing m with
  | nil => exact ⟨[], [], rfl, by simp, by simp⟩
  | cons b l ih =>
    rw [List.foldl_cons]
    split_ifs with hlt
    · obtain ⟨before, after, e, hbefore, hafter⟩ := ih b
      generalize l.foldl (fun m b => if value b < value m then b else m) b = r at *
      have hb : value r ≤ value b := by
        have mem : b ∈ before ++ r :: after := e ▸ List.mem_cons_self
        rw [List.mem_append, List.mem_cons] at mem
        rcases mem with h | rfl | h
        · exact (hbefore b h).le
        · exact le_refl _
        · exact hafter b h
      refine ⟨m :: before, after, by rw [e, List.cons_append], ?_, hafter⟩
      rw [List.forall_mem_cons]
      exact ⟨hb.trans_lt hlt, hbefore⟩
    · obtain ⟨before, after, e, hbefore, hafter⟩ := ih m
      generalize l.foldl (fun m b => if value b < value m then b else m) m = r at *
      rw [not_lt] at hlt
      cases before with
      | nil =>
        rw [List.nil_append, List.cons.injEq] at e
        obtain ⟨rfl, rfl⟩ := e
        exact ⟨[], b :: l, rfl, by simp, List.forall_mem_cons.mpr ⟨hlt, hafter⟩⟩
      | cons m' before =>
        rw [List.cons_append, List.cons.injEq] at e
        obtain ⟨rfl, rfl⟩ := e
        rw [List.forall_mem_cons] at hbefore
        refine ⟨m :: b :: before, after, rfl, ?_, hafter⟩
        rw [List.forall_mem_cons, List.forall_mem_cons]
        exact ⟨hbefore.1, hbefore.1.trans_le hlt, hbefore.2⟩

theorem exists_of_minElement {value : α → β} {r : α} (h : minElement value l = some r) :
    ∃ before after, l = before ++ r :: after ∧ (∀ b ∈ before, value r < value b) ∧
      ∀ b ∈ after, value r ≤ value b := by
  cases l with
  | nil => cases h
  | cons a l =>
    obtain rfl := Option.some.inj h
    exact foldl_min value a l

end Odyssey.Lib
