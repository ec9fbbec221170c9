import Mathlib.Order.Fin.Basic
import Mathlib.Order.Interval.Set.Basic
import Odyssey.Lib.Runs

/-!
# Sets of times

`PlatformTimeRanges` keeps a set of times as a vector of half-open ranges, in order and apart from
each other. Ranges are added one by one; the operations on sets are built from this and from the
complement. An assignment adds the ranges of the right side to those that the left side has.

Times are elements of a linear order with the two infinite times as its ends.
-/
namespace Odyssey.Platform

/-- The times from `start` to before `stop`. -/
structure TimeRange (T : Type*) where
  start : T
  stop : T
deriving DecidableEq

variable {T ι : Type*} [LinearOrder T]

namespace TimeRange

def isPointInRange (r : TimeRange T) (point : T) : Bool := r.start ≤ point && point < r.stop

def isOverlappingRange (r range : TimeRange T) : Bool :=
  r.isPointInRange range.start || r.isPointInRange range.stop || range.isPointInRange r.start

def isContiguousWithRange (r range : TimeRange T) : Bool :=
  range.start == r.stop || range.stop == r.start

def unionWithOverlappingOrContiguousRange (r range : TimeRange T) : TimeRange T where
  start := min r.start range.start
  stop := max r.stop range.stop

def isBeforeRange (r range : TimeRange T) : Bool := range.start ≥ r.stop

def toSet (r : TimeRange T) : Set T := Set.Ico r.start r.stop

end TimeRange

namespace PlatformTimeRanges

open TimeRange

/-- Whether the loop of `add` ends at the range, which has the given ranges in front of it. -/
def insertsHere (before : List (TimeRange T)) (addedRange range : TimeRange T) : Bool :=
  match before.getLast? with
  | none => addedRange.isBeforeRange range
  | some previous => previous.isBeforeRange addedRange && addedRange.isBeforeRange range

/-- The loop of `add`, with the ranges in front of the index and those from the index on. When a
range is removed the index is decremented, and incremented again before the next step, also if it
was zero. -/
def addLoop (before : List (TimeRange T)) (addedRange : TimeRange T) :
    List (TimeRange T) → List (TimeRange T)
  | [] => before ++ [addedRange]
  | range :: rest =>
    if addedRange.isOverlappingRange range || addedRange.isContiguousWithRange range then
      addLoop before (addedRange.unionWithOverlappingOrContiguousRange range) rest
    else if insertsHere before addedRange range then before ++ addedRange :: range :: rest
    else addLoop (before ++ [range]) addedRange rest

def add (ranges : List (TimeRange T)) (start stop : T) : List (TimeRange T) :=
  addLoop [] ⟨start, stop⟩ ranges

def addRange (ranges : List (TimeRange T)) (range : TimeRange T) : List (TimeRange T) :=
  add ranges range.start range.stop

/-- `copy` from another object. -/
def copy (ranges other : List (TimeRange T)) : List (TimeRange T) := other.foldl addRange ranges

/-- `copy` from the object itself, whose ranges are read while they change. -/
def copySelf (ranges : List (TimeRange T)) : Option (List (TimeRange T)) :=
  (List.range ranges.length).foldlM
    (fun ranges index => ranges[index]?.map (addRange ranges)) ranges

def unionWith (ranges other : List (TimeRange T)) : List (TimeRange T) :=
  other.foldl addRange (copy [] ranges)

/-- The ranges between neighbours. -/
def gaps : List (TimeRange T) → List (TimeRange T)
  | range :: next :: rest => ⟨range.stop, next.start⟩ :: gaps (next :: rest)
  | _ => []

section Bounded

variable [BoundedOrder T]

def invert (ranges : List (TimeRange T)) : List (TimeRange T) :=
  match ranges.head?, ranges.getLast? with
  | some first, some last =>
    let inverted := if first.start ≠ ⊥ then add [] ⊥ first.start else []
    let inverted := (gaps ranges).foldl addRange inverted
    if last.stop ≠ ⊤ then add inverted last.stop ⊤ else inverted
  | _, _ => add [] ⊥ ⊤

def intersectWith (ranges other : List (TimeRange T)) : List (TimeRange T) :=
  invert (unionWith (invert ranges) (invert (copy [] other)))

end Bounded

/-! ## Ranges that are kept -/

/-- The ranges are not empty, in order, and neither overlap nor touch. -/
structure Normal (ranges : List (TimeRange T)) : Prop where
  nonempty : ∀ r ∈ ranges, r.start < r.stop
  apart : ranges.Pairwise fun r s => r.stop < s.start

def toSet (ranges : List (TimeRange T)) : Set T := {t | ∃ r ∈ ranges, t ∈ r.toSet}

variable {l ranges k : List (TimeRange T)} {r : TimeRange T}

theorem mem_toSet_range {t : T} : t ∈ r.toSet ↔ r.start ≤ t ∧ t < r.stop := Iff.rfl

@[simp] theorem toSet_nil : toSet ([] : List (TimeRange T)) = ∅ := by simp [toSet]

theorem toSet_cons (r : TimeRange T) (l : List (TimeRange T)) :
    toSet (r :: l) = r.toSet ∪ toSet l := by
  ext t
  simp [toSet]

theorem toSet_append (l k : List (TimeRange T)) : toSet (l ++ k) = toSet l ∪ toSet k := by
  ext t
  simp only [toSet, List.mem_append, Set.mem_ofPred_eq, Set.mem_union, or_and_right, exists_or]

theorem normal_nil : Normal ([] : List (TimeRange T)) := ⟨by simp, .nil⟩

theorem normal_cons :
    Normal (r :: l) ↔ r.start < r.stop ∧ (∀ s ∈ l, r.stop < s.start) ∧ Normal l := by
  constructor
  · rintro ⟨nonempty, apart⟩
    rw [List.forall_mem_cons] at nonempty
    rw [List.pairwise_cons] at apart
    exact ⟨nonempty.1, apart.1, nonempty.2, apart.2⟩
  · rintro ⟨first, before, nonempty, apart⟩
    exact ⟨List.forall_mem_cons.mpr ⟨first, nonempty⟩, List.pairwise_cons.mpr ⟨before, apart⟩⟩

theorem normal_append :
    Normal (l ++ k) ↔ Normal l ∧ Normal k ∧ ∀ r ∈ l, ∀ s ∈ k, r.stop < s.start := by
  constructor
  · rintro ⟨nonempty, apart⟩
    rw [List.forall_mem_append] at nonempty
    rw [List.pairwise_append] at apart
    exact ⟨⟨nonempty.1, apart.1⟩, ⟨nonempty.2, apart.2.1⟩, apart.2.2⟩
  · rintro ⟨⟨nonempty, apart⟩, ⟨nonempty', apart'⟩, between⟩
    exact ⟨List.forall_mem_append.mpr ⟨nonempty, nonempty'⟩,
      List.pairwise_append.mpr ⟨apart, apart', between⟩⟩

/-! ## Adding a range -/

variable {s : TimeRange T}

/-- Ranges are merged if neither ends before the other starts. -/
theorem touches_iff (h : r.start < r.stop) (h' : s.start < s.stop) :
    (r.isOverlappingRange s || r.isContiguousWithRange s) = true ↔
      s.start ≤ r.stop ∧ r.start ≤ s.stop := by
  simp only [isOverlappingRange, isContiguousWithRange, isPointInRange, Bool.or_eq_true,
    Bool.and_eq_true, decide_eq_true_eq, beq_iff_eq]
  grind

theorem toSet_union (h : s.start ≤ r.stop) (h' : r.start ≤ s.stop) :
    (r.unionWithOverlappingOrContiguousRange s).toSet = r.toSet ∪ s.toSet := by
  ext t
  simp only [unionWithOverlappingOrContiguousRange, mem_toSet_range, Set.mem_union]
  grind

/-- The ranges in front of the index lie before the added range. -/
theorem insertsHere_iff {before : List (TimeRange T)} (h : ∀ p ∈ before, p.stop < r.start) :
    insertsHere before r s = true ↔ r.stop ≤ s.start := by
  unfold insertsHere
  cases last : before.getLast? with
  | none => simp [isBeforeRange]
  | some p =>
    have := h p (List.mem_of_getLast? last)
    simp [isBeforeRange, this.le]

theorem addLoop_spec (before : List (TimeRange T)) (added : TimeRange T)
    (rest : List (TimeRange T)) (normal : Normal (before ++ rest)) (h : added.start < added.stop)
    (after : ∀ p ∈ before, p.stop < added.start) :
    Normal (addLoop before added rest) ∧
      toSet (addLoop before added rest) = toSet (before ++ rest) ∪ added.toSet := by
  induction rest generalizing before added with
  | nil =>
    rw [List.append_nil] at normal
    rw [addLoop, List.append_nil, toSet_append, toSet_cons, toSet_nil, Set.union_empty]
    exact
      ⟨normal_append.mpr ⟨normal, normal_cons.mpr ⟨h, by simp, normal_nil⟩, by simpa using after⟩,
      rfl⟩
  | cons range rest ih =>
    obtain ⟨front, back, between⟩ := normal_append.mp normal
    obtain ⟨nonempty, later, tail⟩ := normal_cons.mp back
    rw [addLoop]
    split_ifs with touches inserts
    · rw [touches_iff h nonempty] at touches
      have rest_normal : Normal (before ++ rest) :=
        normal_append.mpr ⟨front, tail, fun p hp q hq => between p hp q (List.mem_cons_of_mem _ hq)⟩
      obtain ⟨normal', eq⟩ := ih before (added.unionWithOverlappingOrContiguousRange range)
        rest_normal (lt_of_le_of_lt (min_le_left _ _) (lt_of_lt_of_le h (le_max_left _ _)))
        fun p hp => lt_min (after p hp) (between p hp range List.mem_cons_self)
      refine ⟨normal', ?_⟩
      rw [eq, toSet_union touches.1 touches.2]
      simp only [toSet_append, toSet_cons]
      ac_rfl
    · rw [insertsHere_iff after] at inserts
      rw [touches_iff h nonempty] at touches
      have apart : added.stop < range.start := by grind
      constructor
      · refine normal_append.mpr ⟨front, normal_cons.mpr ⟨h, ?_, back⟩, ?_⟩
        · rintro q (- | ⟨_, hq⟩)
          · exact apart
          · exact apart.trans (nonempty.trans (later q hq))
        · rintro p hp q (- | ⟨_, hq⟩)
          · exact after p hp
          · exact between p hp q hq
      · simp only [toSet_append, toSet_cons]
        ac_rfl
    · rw [insertsHere_iff after] at inserts
      rw [touches_iff h nonempty] at touches
      have next : before ++ [range] ++ rest = before ++ range :: rest := by simp
      rw [← next] at normal ⊢
      refine ih (before ++ [range]) added normal h ?_
      intro p hp
      rcases List.mem_append.mp hp with hp | hp
      · exact after p hp
      · obtain rfl := List.mem_singleton.mp hp
        grind

theorem addRange_spec (normal : Normal ranges) (h : r.start < r.stop) :
    Normal (addRange ranges r) ∧ toSet (addRange ranges r) = toSet ranges ∪ r.toSet :=
  addLoop_spec [] r ranges normal h (by simp)

theorem foldl_addRange_spec (normal : Normal ranges) (others : List (TimeRange T))
    (h : ∀ r ∈ others, r.start < r.stop) :
    Normal (others.foldl addRange ranges) ∧
      toSet (others.foldl addRange ranges) = toSet ranges ∪ toSet others := by
  induction others generalizing ranges with
  | nil => simp [normal]
  | cons r others ih =>
    obtain ⟨first, rest⟩ := List.forall_mem_cons.mp h
    obtain ⟨added, eq⟩ := addRange_spec normal first
    obtain ⟨normal', eq'⟩ := ih added rest
    refine ⟨normal', ?_⟩
    rw [List.foldl_cons, eq', eq, toSet_cons, Set.union_assoc]

theorem unionWith_spec {other : List (TimeRange T)} (normal : Normal ranges)
    (normal' : Normal other) :
    Normal (unionWith ranges other) ∧
      toSet (unionWith ranges other) = toSet ranges ∪ toSet other := by
  obtain ⟨copied, eq⟩ := foldl_addRange_spec normal_nil ranges normal.nonempty
  obtain ⟨result, eq'⟩ := foldl_addRange_spec copied other normal'.nonempty
  rw [toSet_nil, Set.empty_union] at eq
  exact ⟨result, by rw [unionWith, copy, eq', eq]⟩

/-! ### A range that is there already -/

theorem addLoop_of_mem (before : List (TimeRange T)) {front back : List (TimeRange T)}
    (normal : Normal (before ++ (front ++ r :: back))) :
    addLoop before r (front ++ r :: back) = before ++ (front ++ r :: back) := by
  have after : ∀ p ∈ before, p.stop < r.start := by
    intro p hp
    exact (normal_append.mp normal).2.2 p hp r (by simp)
  obtain ⟨rest, -⟩ := (normal_append.mp normal).2
  induction front generalizing before with
  | nil =>
    obtain ⟨nonempty, later, tail⟩ := normal_cons.mp rest
    have same : r.unionWithOverlappingOrContiguousRange r = r := by
      simp [unionWithOverlappingOrContiguousRange]
    rw [List.nil_append, addLoop, if_pos ((touches_iff nonempty nonempty).mpr
      ⟨nonempty.le, nonempty.le⟩), same]
    cases back with
    | nil => rw [addLoop]
    | cons next back =>
      have apart := later next List.mem_cons_self
      rw [addLoop, if_neg (by rw [touches_iff nonempty (normal_cons.mp tail).1]; grind),
        if_pos ((insertsHere_iff after).mpr apart.le)]
  | cons p front ih =>
    obtain ⟨nonempty, later, tail⟩ := normal_cons.mp rest
    have apart := later r (by simp)
    have present := tail.nonempty r (by simp)
    rw [List.cons_append, addLoop, if_neg (by rw [touches_iff present nonempty]; grind),
      if_neg (by rw [insertsHere_iff after]; grind)]
    have next : before ++ (p :: front ++ r :: back) = before ++ [p] ++ (front ++ r :: back) := by
      simp
    rw [next] at normal
    rw [ih (before ++ [p]) normal ?_ tail, ← next, List.cons_append]
    intro q hq
    rcases List.mem_append.mp hq with hq | hq
    · exact after q hq
    · obtain rfl := List.mem_singleton.mp hq
      exact apart

theorem copySelf_eq (normal : Normal ranges) :
    copySelf ranges = some ranges := by
  have step : ∀ index ∈ List.range ranges.length,
      ranges[index]?.map (addRange ranges) = some ranges := by
    intro index h
    rw [List.mem_range] at h
    rw [List.getElem?_eq_getElem h, Option.map_some]
    obtain ⟨front, back, eq⟩ := List.append_of_mem (List.getElem_mem h)
    generalize ranges[index] = r at eq
    rw [eq] at normal ⊢
    exact congrArg some (addLoop_of_mem [] normal)
  unfold copySelf
  generalize List.range ranges.length = indices at step
  induction indices with
  | nil => rfl
  | cons index indices ih =>
    rw [List.foldlM_cons, step index List.mem_cons_self]
    exact ih fun i h => step i (List.mem_cons_of_mem _ h)

/-! ## The complement -/

theorem gaps_nonempty (normal : Normal ranges) :
    ∀ g ∈ gaps ranges, g.start < g.stop := by
  fun_induction gaps ranges with
  | case1 range next rest ih =>
    obtain ⟨-, later, tail⟩ := normal_cons.mp normal
    exact List.forall_mem_cons.mpr ⟨later next List.mem_cons_self, ih tail⟩
  | case2 => simp

/-- The times from the end of the first range on that are in no range. -/
theorem mem_gaps_or_iff {first last : TimeRange T} {rest : List (TimeRange T)}
    (normal : Normal (first :: rest)) (h : (first :: rest).getLast? = some last) (t : T) :
    t ∈ toSet (gaps (first :: rest)) ∨ last.stop ≤ t ↔ first.stop ≤ t ∧ t ∉ toSet rest := by
  induction rest generalizing first with
  | nil =>
    obtain rfl : first = last := by simpa using h
    simp [gaps]
  | cons next rest ih =>
    obtain ⟨-, later, tail⟩ := normal_cons.mp normal
    obtain ⟨nonempty, later', -⟩ := normal_cons.mp tail
    have apart := later next List.mem_cons_self
    have beyond : t < next.stop → t ∉ toSet rest := by
      rintro lt ⟨r, hr, ge, -⟩
      exact absurd (lt.trans (later' r hr)) ge.not_gt
    have ih := ih tail (by simpa using h)
    rw [gaps, toSet_cons, toSet_cons, Set.mem_union, Set.mem_union, or_assoc, ih]
    simp only [mem_toSet_range]
    grind

section Bounded

variable [BoundedOrder T]

theorem lower_spec (stop : T) :
    Normal (if stop ≠ ⊥ then add [] ⊥ stop else []) ∧
      ∀ t, t ∈ toSet (if stop ≠ ⊥ then add [] ⊥ stop else []) ↔ t < stop := by
  split_ifs with h
  · obtain ⟨normal, eq⟩ := @addRange_spec _ _ [] ⟨⊥, stop⟩ normal_nil (bot_lt_iff_ne_bot.mpr h)
    refine ⟨normal, fun t => ?_⟩
    change t ∈ toSet (addRange [] ⟨⊥, stop⟩) ↔ _
    simp [eq, mem_toSet_range]
  · obtain rfl : stop = ⊥ := not_not.mp h
    exact ⟨normal_nil, by simp⟩

theorem upper_spec (normal : Normal ranges) (start : T) :
    Normal (if start ≠ ⊤ then add ranges start ⊤ else ranges) ∧
      ∀ t, t ∈ toSet (if start ≠ ⊤ then add ranges start ⊤ else ranges) ↔
        t ∈ toSet ranges ∨ start ≤ t ∧ t < ⊤ := by
  split_ifs with h
  · obtain ⟨normal', eq⟩ := @addRange_spec _ _ ranges ⟨start, ⊤⟩ normal (lt_top_iff_ne_top.mpr h)
    refine ⟨normal', fun t => ?_⟩
    change t ∈ toSet (addRange ranges ⟨start, ⊤⟩) ↔ _
    simp [eq, mem_toSet_range]
  · obtain rfl : start = ⊤ := not_not.mp h
    refine ⟨normal, fun t => ⟨.inl, ?_⟩⟩
    rintro (h | ⟨ge, lt⟩)
    · exact h
    · exact absurd lt ge.not_gt

/-- No time is in a range at the infinite end. -/
theorem lt_top_of_mem {t : T} (h : t ∈ toSet ranges) : t < ⊤ := by
  obtain ⟨r, -, -, lt⟩ := h
  exact lt_of_lt_of_le lt le_top

theorem invert_spec [Nontrivial T] (normal : Normal ranges) :
    Normal (invert ranges) ∧ toSet (invert ranges) = Set.Iio ⊤ \ toSet ranges := by
  cases ranges with
  | nil =>
    obtain ⟨result, eq⟩ := @addRange_spec _ _ [] ⟨(⊥ : T), ⊤⟩ normal_nil bot_lt_top
    refine ⟨result, ?_⟩
    rw [toSet_nil, Set.empty_union] at eq
    rw [toSet_nil, Set.sdiff_empty]
    refine eq.trans ?_
    ext t
    simp [mem_toSet_range]
  | cons first rest =>
    obtain ⟨nonempty, later, tail⟩ := normal_cons.mp normal
    obtain ⟨last, hlast⟩ : ∃ last, (first :: rest).getLast? = some last :=
      ⟨_, List.getLast?_eq_some_getLast (List.cons_ne_nil first rest)⟩
    have eq : invert (first :: rest) = if last.stop ≠ ⊤ then
        add ((gaps (first :: rest)).foldl addRange
          (if first.start ≠ ⊥ then add [] ⊥ first.start else [])) last.stop ⊤
        else (gaps (first :: rest)).foldl addRange
          (if first.start ≠ ⊥ then add [] ⊥ first.start else []) := by
      rw [invert, List.head?_cons, hlast]
    obtain ⟨lower, mem_lower⟩ := lower_spec first.start
    obtain ⟨middle, mem_middle⟩ := foldl_addRange_spec lower _ (gaps_nonempty normal)
    obtain ⟨upper, mem_upper⟩ := upper_spec middle last.stop
    rw [← eq] at upper mem_upper
    refine ⟨upper, Set.ext fun t => ?_⟩
    have between := mem_gaps_or_iff normal hlast t
    have before : t < first.start → t ∉ toSet rest := by
      rintro lt ⟨r, hr, ge, -⟩
      exact absurd (lt.trans (nonempty.trans (later r hr))) ge.not_gt
    have bounded := @lt_top_of_mem _ _ (gaps (first :: rest)) _ t
    have small : t < first.start → t < ⊤ := fun lt => lt_of_lt_of_le lt le_top
    rw [mem_upper, mem_middle, Set.mem_union, mem_lower, Set.mem_sdiff, Set.mem_Iio, toSet_cons,
      Set.mem_union, mem_toSet_range]
    grind

theorem intersectWith_spec [Nontrivial T] {other : List (TimeRange T)} (normal : Normal ranges)
    (normal' : Normal other) :
    Normal (intersectWith ranges other) ∧
      toSet (intersectWith ranges other) = toSet ranges ∩ toSet other := by
  obtain ⟨copied, copy_eq⟩ := foldl_addRange_spec normal_nil other normal'.nonempty
  obtain ⟨inverted, eq⟩ := invert_spec normal
  obtain ⟨inverted', eq'⟩ := invert_spec copied
  obtain ⟨union, union_eq⟩ := unionWith_spec inverted inverted'
  obtain ⟨result, result_eq⟩ := invert_spec union
  refine ⟨result, Set.ext fun t => ?_⟩
  rw [toSet_nil, Set.empty_union] at copy_eq
  have bounded := @lt_top_of_mem _ _ ranges _ t
  have bounded' := @lt_top_of_mem _ _ other _ t
  change t ∈ toSet (invert (unionWith (invert ranges) (invert (other.foldl addRange [])))) ↔ _
  rw [result_eq, union_eq, eq, eq', copy_eq]
  simp only [Set.mem_sdiff, Set.mem_Iio, Set.mem_union, Set.mem_inter_iff]
  tauto

end Bounded

/-! ## Several objects -/

/-- What is done with the objects. -/
inductive Operation (ι T : Type*) where
  | construct (i : ι)
  | constructRange (i : ι) (start stop : T)
  | copyConstruct (i j : ι)
  | assign (i j : ι)
  | add (i : ι) (start stop : T)
  | unionWith (i j : ι)
  | intersectWith (i j : ι)
  | invert (i : ι)

/-- The ranges of all objects, and the sets that they should be. -/
structure Objects (ι T : Type*) where
  ranges : ι → List (TimeRange T)
  sets : ι → Set T

variable [DecidableEq ι] [BoundedOrder T]

/-- The new ranges of an object. -/
def Objects.result (objects : Objects ι T) : Operation ι T → Option (List (TimeRange T))
  | .construct _ => some []
  | .constructRange _ start stop => some (PlatformTimeRanges.add [] start stop)
  | .copyConstruct _ j => some (copy [] (objects.ranges j))
  | .assign i j =>
    if i = j then copySelf (objects.ranges i) else some (copy (objects.ranges i) (objects.ranges j))
  | .add i start stop => some (PlatformTimeRanges.add (objects.ranges i) start stop)
  | .unionWith i j => some (PlatformTimeRanges.unionWith (objects.ranges i) (objects.ranges j))
  | .intersectWith i j =>
    some (PlatformTimeRanges.intersectWith (objects.ranges i) (objects.ranges j))
  | .invert i => some (PlatformTimeRanges.invert (objects.ranges i))

/-- The set that the operation is for. -/
def Objects.meaning (objects : Objects ι T) : Operation ι T → Set T
  | .construct _ => ∅
  | .constructRange _ start stop => Set.Ico start stop
  | .copyConstruct _ j => objects.sets j
  | .assign _ j => objects.sets j
  | .add i start stop => objects.sets i ∪ Set.Ico start stop
  | .unionWith i j => objects.sets i ∪ objects.sets j
  | .intersectWith i j => objects.sets i ∩ objects.sets j
  | .invert i => Set.Iio ⊤ \ objects.sets i

def Operation.target : Operation ι T → ι
  | .construct i | .constructRange i _ _ | .copyConstruct i _ | .assign i _ | .add i _ _
  | .unionWith i _ | .intersectWith i _ | .invert i => i

def Objects.step (objects : Objects ι T) (operation : Operation ι T) : Option (Objects ι T) :=
  (objects.result operation).map fun ranges =>
    { ranges := Function.update objects.ranges operation.target ranges
      sets := Function.update objects.sets operation.target (objects.meaning operation) }

/-- Every object has ranges in order, and these are the set that it should be. -/
def Objects.Exact (objects : Objects ι T) : Prop :=
  ∀ i, Normal (objects.ranges i) ∧ toSet (objects.ranges i) = objects.sets i

/-- Ranges that are added are not empty. -/
def Operation.Legal : Operation ι T → Prop
  | .add _ start stop => start < stop
  | _ => True

/-- An object is not made of an empty range, and has no times that it should lose when it is
assigned to. -/
def Objects.Keeps (objects : Objects ι T) : Operation ι T → Prop
  | .constructRange _ start stop => start < stop
  | .assign i j => toSet (objects.ranges i) ⊆ toSet (objects.ranges j)
  | _ => True

variable {objects objects' : Objects ι T} {operation : Operation ι T}

omit [BoundedOrder T] in
theorem copy_spec {other : List (TimeRange T)} (normal : Normal ranges) (normal' : Normal other) :
    Normal (copy ranges other) ∧ toSet (copy ranges other) = toSet ranges ∪ toSet other :=
  foldl_addRange_spec normal other normal'.nonempty

/-- What one operation does under the condition. -/
theorem Objects.Exact.result_spec [Nontrivial T] (exact : objects.Exact) (legal : operation.Legal)
    (keeps : objects.Keeps operation) : ∃ ranges, objects.result operation = some ranges ∧
      Normal ranges ∧ toSet ranges = objects.meaning operation := by
  cases operation with
  | construct i => exact ⟨[], rfl, normal_nil, toSet_nil⟩
  | constructRange i start stop =>
    obtain ⟨normal, eq⟩ := @addRange_spec _ _ [] ⟨start, stop⟩ normal_nil keeps
    refine ⟨_, rfl, normal, eq.trans ?_⟩
    rw [toSet_nil, Set.empty_union]
    rfl
  | copyConstruct i j =>
    obtain ⟨normal, eq⟩ := copy_spec normal_nil (exact j).1
    refine ⟨_, rfl, normal, eq.trans ?_⟩
    rw [toSet_nil, Set.empty_union]
    exact (exact j).2
  | assign i j =>
    by_cases same : i = j
    · refine ⟨objects.ranges i, ?_, (exact i).1, same ▸ (exact i).2⟩
      rw [Objects.result, if_pos same, copySelf_eq (exact i).1]
    · obtain ⟨normal, eq⟩ := copy_spec (exact i).1 (exact j).1
      refine ⟨_, if_neg same, normal, eq.trans ?_⟩
      rw [Set.union_eq_self_of_subset_left keeps]
      exact (exact j).2
  | add i start stop =>
    obtain ⟨normal, eq⟩ := @addRange_spec _ _ _ ⟨start, stop⟩ (exact i).1 legal
    refine ⟨_, rfl, normal, eq.trans ?_⟩
    rw [(exact i).2]
    rfl
  | unionWith i j =>
    obtain ⟨normal, eq⟩ := unionWith_spec (exact i).1 (exact j).1
    exact ⟨_, rfl, normal, by rw [eq, (exact i).2, (exact j).2]; rfl⟩
  | intersectWith i j =>
    obtain ⟨normal, eq⟩ := intersectWith_spec (exact i).1 (exact j).1
    exact ⟨_, rfl, normal, by rw [eq, (exact i).2, (exact j).2]; rfl⟩
  | invert i =>
    obtain ⟨normal, eq⟩ := invert_spec (exact i).1
    exact ⟨_, rfl, normal, by rw [eq, (exact i).2]; rfl⟩

theorem Objects.Exact.step [Nontrivial T] (exact : objects.Exact) (legal : operation.Legal)
    (keeps : objects.Keeps operation) :
    ∃ objects', objects.step operation = some objects' ∧ objects'.Exact := by
  obtain ⟨ranges, eq, normal, same⟩ := exact.result_spec legal keeps
  refine ⟨_, by rw [Objects.step, eq]; rfl, fun i => ?_⟩
  by_cases target : i = operation.target
  · subst target
    simp only [Function.update_self]
    exact ⟨normal, same⟩
  · simp only [Function.update_of_ne target]
    exact exact i

/-- Without the condition, the object is wrong at once. -/
theorem Objects.Exact.not_exact (exact : objects.Exact) (breaks : ¬ objects.Keeps operation)
    (h : objects.step operation = some objects') : ¬ objects'.Exact := by
  intro exact'
  obtain ⟨ranges, eq, rfl⟩ := Option.map_eq_some_iff.mp h
  have target := exact' operation.target
  simp only [Function.update_self] at target
  obtain ⟨normal, same⟩ := target
  cases operation with
  | constructRange i start stop =>
    obtain rfl := Option.some.inj eq
    exact breaks (normal.nonempty ⟨start, stop⟩ List.mem_cons_self)
  | assign i j =>
    have ne : i ≠ j := by
      rintro rfl
      exact breaks subset_rfl
    rw [Objects.result, if_neg ne] at eq
    obtain rfl := Option.some.inj eq
    refine breaks ?_
    rw [(copy_spec (exact i).1 (exact j).1).2, Objects.meaning, ← (exact j).2] at same
    exact Set.union_eq_right.mp same
  | construct | copyConstruct | add | unionWith | intersectWith | invert => exact breaks trivial

/-- No object has been constructed. -/
def Objects.none : Objects ι T where
  ranges _ := []
  sets _ := ∅

/-- The runs in which all objects are the sets they should be, at any time. -/
theorem Objects.exact_iff [Nontrivial T] (operations : List (Operation ι T))
    (legal : ∀ operation ∈ operations, operation.Legal) :
    Lib.Runs.Always Objects.step Objects.Exact .none operations ↔
      Lib.Runs.Every Objects.step Objects.Keeps .none operations :=
  Lib.Runs.always_iff_every (fun exact => exact) (fun exact legal keeps => exact.step legal keeps)
    (fun exact _ breaks h => exact.not_exact breaks h) (fun _ => ⟨normal_nil, toSet_nil⟩)
    (Lib.Runs.every_of_forall fun operation mem _ => legal operation mem)

/-- A set is assigned to a new object, which is then inverted and intersected with the first one. -/
theorem Objects.exact_run : Lib.Runs.Always Objects.step Objects.Exact (.none : Objects Nat (Fin 9))
    [.constructRange 0 2 6, .construct 1, .assign 1 0, .invert 1, .add 0 6 7,
      .intersectWith 0 1] := by
  refine (Objects.exact_iff _ ?_).mpr ?_
  · simp only [List.forall_mem_cons, Operation.Legal]
    exact ⟨trivial, trivial, trivial, trivial, by decide, trivial, by simp⟩
  · refine ⟨(by decide : (2 : Fin 9) < 6), fun s first => ⟨trivial, fun s' second => ⟨?_,
      fun _ _ => ⟨trivial, fun _ _ => ⟨trivial, fun _ _ => ⟨trivial, fun _ _ => trivial⟩⟩⟩⟩⟩⟩
    obtain rfl := Option.some.inj second
    rintro t ⟨r, mem, -⟩
    exact absurd mem List.not_mem_nil

/-- After the assignment of a set to another one the first one is the union of both. -/
theorem Objects.assign_keeps_times :
    (∀ operation ∈ [.constructRange 0 1 2, .constructRange 1 3 4, .assign 0 1],
      (operation : Operation Nat (Fin 9)).Legal) ∧
    ¬ Lib.Runs.Always Objects.step Objects.Exact (.none : Objects Nat (Fin 9))
      [.constructRange 0 1 2, .constructRange 1 3 4, .assign 0 1] := by
  refine ⟨by simp [Operation.Legal], fun always => ?_⟩
  obtain ⟨objects, run, exact⟩ := always.last
  obtain rfl := Option.some.inj run
  have mem : (1 : Fin 9) ∈ Set.Ico 3 4 := by
    rw [show Set.Ico (3 : Fin 9) 4 = _ from (exact 0).2.symm]
    exact ⟨⟨1, 2⟩, List.mem_cons_self, by decide, by decide⟩
  exact absurd mem.1 (by decide)

/-! ## Ranges as a normal form -/

omit [BoundedOrder T] in
/-- The first range starts with the least time of the set, and stops where the set has its first
gap. -/
theorem Normal.head_of_subset {s : TimeRange T} (normal : Normal (r :: l))
    (normal' : Normal (s :: k)) (h : toSet (r :: l) ⊆ toSet (s :: k)) :
    s.start ≤ r.start ∧ (r.start = s.start → r.stop ≤ s.stop) := by
  obtain ⟨first, -, -⟩ := normal_cons.mp normal
  obtain ⟨first', later', -⟩ := normal_cons.mp normal'
  have sub (t : T) (low : r.start ≤ t) (high : t < r.stop) :
      s.start ≤ t ∧ t ≠ s.stop := by
    obtain ⟨q, mem, ge, lt⟩ := h ⟨r, List.mem_cons_self, low, high⟩
    rcases List.mem_cons.mp mem with rfl | mem
    · exact ⟨ge, lt.ne⟩
    · have after := (later' q mem).trans_le ge
      exact ⟨(first'.trans after).le, after.ne'⟩
  refine ⟨(sub r.start le_rfl first).1, fun same => not_lt.mp fun longer => ?_⟩
  exact (sub s.stop (same ▸ first'.le) longer).2 rfl

omit [BoundedOrder T] in
theorem Normal.eq_nil (normal : Normal l) (h : toSet l = ∅) : l = [] := by
  cases l with
  | nil => rfl
  | cons r l =>
    have mem : r.start ∈ toSet (r :: l) :=
      ⟨r, List.mem_cons_self, le_rfl, normal.nonempty r List.mem_cons_self⟩
    rw [h] at mem
    exact mem.elim

omit [BoundedOrder T] in
theorem Normal.mem_tail_iff (normal : Normal (r :: l)) (t : T) :
    t ∈ toSet l ↔ t ∈ toSet (r :: l) ∧ r.stop ≤ t := by
  rw [toSet_cons]
  constructor
  · rintro ⟨q, mem, ge, lt⟩
    exact ⟨.inr ⟨q, mem, ge, lt⟩, (((normal_cons.mp normal).2.1 q mem).trans_le ge).le⟩
  · rintro ⟨mem | mem, le⟩
    · exact absurd mem.2 le.not_gt
    · exact mem

omit [BoundedOrder T] in
/-- Ranges that are kept in order are determined by their set. -/
theorem Normal.ext (normal : Normal l) (normal' : Normal k) (h : toSet l = toSet k) : l = k := by
  induction l generalizing k with
  | nil => exact (normal'.eq_nil (h.symm.trans toSet_nil)).symm
  | cons r l ih =>
    cases k with
    | nil => exact normal.eq_nil (h.trans toSet_nil)
    | cons s k =>
      have left := normal.head_of_subset normal' h.le
      have right := normal'.head_of_subset normal h.ge
      have start : r.start = s.start := le_antisymm right.1 left.1
      have stop := le_antisymm (left.2 start) (right.2 start.symm)
      obtain rfl : r = s := by
        cases r
        cases s
        simp_all
      have rest : toSet l = toSet k := by
        ext t
        rw [normal.mem_tail_iff, normal'.mem_tail_iff, h]
      rw [ih (normal_cons.mp normal).2.2 (normal_cons.mp normal').2.2 rest]

omit [BoundedOrder T] in
/-- Which ranges an object has does not depend on how its times were added: in which order, how
often, or in which overlapping or contiguous pieces. -/
theorem addAll_eq_of_toSet_eq {added added' : List (TimeRange T)}
    (nonempty : ∀ r ∈ added, r.start < r.stop) (nonempty' : ∀ r ∈ added', r.start < r.stop)
    (same : toSet added = toSet added') : added.foldl addRange [] = added'.foldl addRange [] := by
  obtain ⟨normal, eq⟩ := foldl_addRange_spec normal_nil added nonempty
  obtain ⟨normal', eq'⟩ := foldl_addRange_spec normal_nil added' nonempty'
  exact normal.ext normal' (by rw [eq, eq', same])

theorem addAll_pieces : [⟨0, 4⟩, ⟨6, 8⟩].foldl addRange ([] : List (TimeRange (Fin 9))) =
    [⟨6, 7⟩, ⟨2, 4⟩, ⟨0, 3⟩, ⟨7, 8⟩, ⟨1, 2⟩].foldl addRange [] := by
  refine addAll_eq_of_toSet_eq (by decide) (by decide) (Set.ext fun t => ?_)
  revert t
  simp only [toSet, mem_toSet_range, Set.mem_ofPred_eq]
  decide

/-- `unionWith` and `intersectWith` do not depend on which object is changed, and `invert` undoes
itself. -/
theorem operations_laws [Nontrivial T] {ranges other : List (TimeRange T)} (normal : Normal ranges)
    (normal' : Normal other) :
    unionWith ranges other = unionWith other ranges ∧
      intersectWith ranges other = intersectWith other ranges ∧
      invert (invert ranges) = ranges := by
  obtain ⟨union, union_eq⟩ := unionWith_spec normal normal'
  obtain ⟨union', union_eq'⟩ := unionWith_spec normal' normal
  obtain ⟨inter, inter_eq⟩ := intersectWith_spec normal normal'
  obtain ⟨inter', inter_eq'⟩ := intersectWith_spec normal' normal
  obtain ⟨inverted, inverted_eq⟩ := invert_spec normal
  obtain ⟨twice, twice_eq⟩ := invert_spec inverted
  refine ⟨union.ext union' ?_, inter.ext inter' ?_, twice.ext normal ?_⟩
  · rw [union_eq, union_eq', Set.union_comm]
  · rw [inter_eq, inter_eq', Set.inter_comm]
  · have below : toSet ranges ⊆ Set.Iio ⊤ := fun t mem => lt_top_of_mem mem
    rw [twice_eq, inverted_eq, Set.sdiff_sdiff_cancel_left below]

theorem operations_laws_touching :
    unionWith [⟨1, 3⟩] [⟨3, 5⟩] = unionWith [⟨3, 5⟩] ([⟨1, 3⟩] : List (TimeRange (Fin 9))) ∧
      intersectWith [⟨1, 3⟩] [⟨3, 5⟩] =
        intersectWith [⟨3, 5⟩] ([⟨1, 3⟩] : List (TimeRange (Fin 9))) ∧
      invert (invert [⟨1, 3⟩]) = ([⟨1, 3⟩] : List (TimeRange (Fin 9))) :=
  operations_laws ⟨by decide, by decide⟩ ⟨by decide, by decide⟩

end PlatformTimeRanges

end Odyssey.Platform
