import Mathlib.Data.Fintype.Defs
import Mathlib.Data.List.Perm.Basic
import Mathlib.Logic.Function.Basic
import Mathlib.Order.Lattice.Nat
import Odyssey.Bmalloc.LineMetadata
import Odyssey.Lib.Runs

/-!
# Extra-large objects

`m_xLargeObjects` of `Heap`, and the operations that read and write it: `tryAllocateXLarge`,
`deallocateXLarge` and the shrinking path of `Allocator::reallocate`. The last two release the
heap's lock while they give memory back, so each is two steps and the steps of other threads may
come in between.

`reallocate` keeps a `Range&` across the time it does not hold the lock. The reference is a slot of
the vector's buffer; by the time it is written, another thread may have moved the object's entry to
another slot, or all entries to another buffer. The table stays exact on the histories in which this
does not happen, and on no others.
-/

namespace Odyssey.Bmalloc

open Function (update)

/-! ## The table -/

def largeChunkSize : Nat := superChunkSize / 2

def largeMax : Nat := largeChunkSize * 99 / 100

structure Range where
  begin : Nat
  size : Nat
  deriving DecidableEq, Repr

/-- `x` rounded up; the source masks, for a divisor that is a power of two. -/
def roundUpToMultipleOf (divisor x : Nat) : Nat :=
  (x + (divisor - 1)) / divisor * divisor

/-- `Vector::pop(i)`: the last element takes the place of element `i`. -/
def popAt {α : Type} (vector : List α) (i : Nat) : List α :=
  match vector.getLast? with
  | none => vector
  | some last => (vector.set i last).dropLast

theorem popAt_concat_of_lt {α : Type} {front : List α} {i : Nat} (lt : i < front.length)
    (last : α) : popAt (front ++ [last]) i = front.set i last := by
  simp [popAt, List.set_append_left _ _ lt]

theorem popAt_concat_length {α : Type} (front : List α) (last : α) :
    popAt (front ++ [last]) front.length = front := by
  simp [popAt]

/-- `Vector<Range>`: the address of its buffer, what it holds, and `m_capacity`. -/
structure XLargeTable where
  buffer : Nat
  ranges : List Range
  capacity : Nat
  deriving DecidableEq, Repr

namespace XLargeTable

def empty : XLargeTable := ⟨0, [], 0⟩

def growFactor : Nat := 2

def shrinkFactor : Nat := 4

/-- `sizeof(Range)`, a pointer and a `size_t`. -/
def rangeSize : Nat := 16

def initialCapacity (P : Platform) : Nat :=
  vmPageSize P / rangeSize

/-- `reallocateBuffer`; `buffer` is what `vmAllocate` returns. -/
def reallocateBuffer (P : Platform) (buffer newCapacity : Nat) (t : XLargeTable) : XLargeTable :=
  { t with
    buffer := buffer
    capacity := roundUpToMultipleOf (vmPageSize P) (newCapacity * rangeSize) / rangeSize }

/-- `push`, with `growCapacity`. -/
def push (P : Platform) (buffer : Nat) (range : Range) (t : XLargeTable) : XLargeTable :=
  let t :=
    if t.ranges.length = t.capacity then
      t.reallocateBuffer P buffer (max (initialCapacity P) (t.ranges.length * growFactor))
    else
      t
  { t with ranges := t.ranges ++ [range] }

/-- `pop(i)`, with `shrink` and `shrinkCapacity`. -/
def pop (P : Platform) (buffer i : Nat) (t : XLargeTable) : XLargeTable :=
  let t := { t with ranges := popAt t.ranges i }
  if t.capacity > initialCapacity P ∧ t.ranges.length < t.capacity / shrinkFactor then
    t.reallocateBuffer P buffer (max (initialCapacity P) (t.capacity / shrinkFactor))
  else
    t

/-- `findXLarge`, as the slot of the range it returns; `none` is the failed assertion. -/
def find (object : Nat) (t : XLargeTable) : Option Nat :=
  t.ranges.findIdx? (·.begin = object)

/-- The assignment through a reference to a slot. The buffer that the reference points into may have
been given back: `none`. A slot behind the end of the vector is written, but nobody reads it. -/
def write (buffer slot : Nat) (range : Range) (t : XLargeTable) : Option XLargeTable :=
  if buffer = t.buffer then some { t with ranges := t.ranges.set slot range } else none

@[simp] theorem push_ranges (P : Platform) (buffer : Nat) (range : Range) (t : XLargeTable) :
    (t.push P buffer range).ranges = t.ranges ++ [range] := by
  unfold push
  split_ifs <;> rfl

@[simp] theorem pop_ranges (P : Platform) (buffer i : Nat) (t : XLargeTable) :
    (t.pop P buffer i).ranges = popAt t.ranges i := by
  unfold pop
  dsimp only
  split_ifs <;> rfl

end XLargeTable

/-! ## Steps -/

/-- Where a thread is: outside, or in one of the two calls that have released the lock. -/
inductive XLargePc where
  | idle
  | unmapping (range : Range)
  | shrinking (object newSize buffer slot : Nat)
  deriving DecidableEq, Repr

/-- The object a thread is working on. -/
def XLargePc.object : XLargePc → Option Nat
  | .idle => none
  | .unmapping range => some range.begin
  | .shrinking object _ _ _ => some object

def XLargePc.IsUnmapping : XLargePc → Bool
  | .unmapping _ => true
  | _ => false

def XLargePc.IsShrinking : XLargePc → Bool
  | .shrinking .. => true
  | _ => false

/-- The table, the threads, and the extra-large objects that the program holds, each with the size
it has been given. -/
structure XLargeState (Thread : Type) where
  table : XLargeTable
  pcs : Thread → XLargePc
  live : List Range

/-- `buffer` is the address that `vmAllocate` returns if the vector changes its buffer. -/
inductive XLargeAction (Thread : Type) where
  /-- `tryAllocateXLarge`; `result` is what `tryVMAllocate` returns. -/
  | allocate (t : Thread) (size : Nat) (result : Option Nat) (buffer : Nat)
  /-- `deallocateXLarge` up to where it releases the lock. -/
  | deallocate (t : Thread) (object buffer : Nat)
  | finishDeallocate (t : Thread)
  /-- The `XLarge` case of `Allocator::reallocate` up to where it releases the lock. -/
  | reallocate (t : Thread) (object newSize : Nat)
  | finishReallocate (t : Thread)

variable {Thread : Type} [DecidableEq Thread]

namespace XLargeState

def init : XLargeState Thread where
  table := .empty
  pcs := fun _ => .idle
  live := []

def setPc (s : XLargeState Thread) (t : Thread) (pc : XLargePc) : XLargeState Thread :=
  { s with pcs := update s.pcs t pc }

/-- The size of one live object changes. -/
def resize (object newSize : Nat) (live : List Range) : List Range :=
  live.map fun r => if r.begin = object then ⟨object, newSize⟩ else r

/-- What `reallocate` does with the range it has found in a slot. If it does not shrink the object,
it returns it as it is or goes on to copy it, with an allocation and a deallocation of their own. -/
def shrink (P : Platform) (s : XLargeState Thread) (t : Thread) (newSize slot : Nat)
    (range : Range) : XLargeState Thread :=
  let rounded := roundUpToMultipleOf (vmPageSize P) newSize
  -- Both sizes are multiples of `vmPageSize`, so the difference does not wrap.
  if newSize < range.size ∧ newSize > largeMax ∧ range.size - rounded ≥ vmPageSize P then
    s.setPc t (.shrinking range.begin rounded s.table.buffer slot)
  else
    s

/-- One step; `none` if an assertion of the code fails or it writes to memory it has given back. -/
def step (P : Platform) (s : XLargeState Thread) : XLargeAction Thread → Option (XLargeState Thread)
  | .allocate _ _ none _ => some s
  | .allocate _ size (some result) buffer =>
    let range : Range := ⟨result, roundUpToMultipleOf (vmPageSize P) size⟩
    some { s with table := s.table.push P buffer range, live := range :: s.live }
  | .deallocate t object buffer =>
    (s.table.find object).bind fun i => (s.table.ranges[i]?).map fun range =>
      { s.setPc t (.unmapping range) with
        table := s.table.pop P buffer i
        live := s.live.filter (·.begin ≠ object) }
  | .finishDeallocate t => some (s.setPc t .idle)
  | .reallocate t object newSize =>
    (s.table.find object).bind fun i => (s.table.ranges[i]?).map (s.shrink P t newSize i)
  | .finishReallocate t =>
    match s.pcs t with
    | .shrinking object newSize buffer slot =>
      (s.table.write buffer slot ⟨object, newSize⟩).map fun table =>
        { s.setPc t .idle with table := table, live := resize object newSize s.live }
    | _ => none

/-- The object is live and no thread is working on it. -/
def Available (s : XLargeState Thread) (object : Nat) : Prop :=
  object ∈ s.live.map (·.begin) ∧ ∀ t, (s.pcs t).object ≠ some object

/-- What the program and the system guarantee: a thread makes one call after another, the calls are
on distinct live objects, and new memory is not where a live object is. -/
def Legal (s : XLargeState Thread) : XLargeAction Thread → Prop
  | .allocate t _ result _ => s.pcs t = .idle ∧ ∀ object ∈ result, object ∉ s.live.map (·.begin)
  | .deallocate t object _ => s.pcs t = .idle ∧ s.Available object
  | .finishDeallocate t => (s.pcs t).IsUnmapping
  | .reallocate t object _ => s.pcs t = .idle ∧ s.Available object
  | .finishReallocate t => (s.pcs t).IsShrinking

/-- When a shrinking `reallocate` gets the lock back, the slot that it refers to still is a slot of
the table and holds the object's entry. -/
def Unmoved (s : XLargeState Thread) : XLargeAction Thread → Prop
  | .finishReallocate t =>
    match s.pcs t with
    | .shrinking object _ buffer slot =>
      buffer = s.table.buffer ∧ (s.table.ranges[slot]?).map (·.begin) = some object
    | _ => True
  | _ => True

instance [Fintype Thread] (s : XLargeState Thread) : DecidablePred s.Legal
  | .allocate .. => inferInstanceAs (Decidable (_ ∧ _))
  | .deallocate .. => inferInstanceAs (Decidable (_ ∧ _ ∧ _))
  | .finishDeallocate _ => inferInstanceAs (Decidable (_ = true))
  | .reallocate .. => inferInstanceAs (Decidable (_ ∧ _ ∧ _))
  | .finishReallocate _ => inferInstanceAs (Decidable (_ = true))

instance (s : XLargeState Thread) : DecidablePred s.Unmoved
  | .allocate .. | .deallocate .. | .finishDeallocate _ | .reallocate .. => isTrue trivial
  | .finishReallocate t =>
    match h : s.pcs t with
    | .shrinking object _ buffer slot =>
      decidable_of_iff
        (buffer = s.table.buffer ∧ (s.table.ranges[slot]?).map (·.begin) = some object)
        (by simp only [Unmoved, h])
    | .idle | .unmapping _ => isTrue (by simp only [Unmoved, h])

/-- The table has one range for each live object, with its begin and its size. -/
def Exact (s : XLargeState Thread) : Prop :=
  (s.live.map (·.begin)).Nodup ∧ s.table.ranges.Perm s.live

end XLargeState

/-! ## Lists of ranges with different begins -/

/-- `Vector::pop(i)` takes out element `i`. -/
theorem popAt_perm {α : Type} {vector : List α} {i : Nat} {a : α} (at_i : vector[i]? = some a) :
    (a :: popAt vector i).Perm vector := by
  obtain ⟨lt, get⟩ := List.getElem?_eq_some_iff.mp at_i
  rcases List.eq_nil_or_concat vector with rfl | ⟨front, last, rfl⟩
  · exact absurd lt (Nat.not_lt_zero _)
  · simp only [List.concat_eq_append] at lt get ⊢
    rw [List.length_append, List.length_singleton] at lt
    rcases Nat.lt_or_eq_of_le (Nat.le_of_lt_succ lt) with inside | rfl
    · rw [List.getElem_append_left inside] at get
      rw [popAt_concat_of_lt inside, ← get]
      refine ((List.set_perm_cons_eraseIdx inside last).cons _).trans ?_
      refine (List.Perm.swap ..).trans ?_
      refine ((List.getElem_cons_eraseIdx_perm inside).cons last).trans ?_
      exact (List.perm_append_singleton _ _).symm
    · rw [List.getElem_concat_length rfl] at get
      rw [popAt_concat_length, get]
      exact (List.perm_append_singleton _ _).symm

section Begins

variable {ranges : List Range} {object slot : Nat} {range : Range}

theorem XLargeTable.find_spec {t : XLargeTable} {i : Nat} (found : t.find object = some i) :
    ∃ range, t.ranges[i]? = some range ∧ range.begin = object := by
  obtain ⟨lt, begins, -⟩ := List.findIdx?_eq_some_iff_getElem.mp found
  exact ⟨t.ranges[i], List.getElem?_eq_getElem lt, by simpa using begins⟩

theorem XLargeTable.exists_find {t : XLargeTable} (mem : object ∈ t.ranges.map (·.begin)) :
    ∃ i, t.find object = some i := by
  obtain ⟨range, mem, begins⟩ := List.mem_map.mp mem
  refine Option.isSome_iff_exists.mp ?_
  rw [XLargeTable.find, List.findIdx?_isSome, List.any_eq_true]
  exact ⟨range, mem, by simpa using begins⟩

/-- Writing the object's own slot changes its entry and no other. -/
theorem set_eq_resize (nodup : (ranges.map (·.begin)).Nodup) (at_slot : ranges[slot]? = some range)
    (newSize : Nat) :
    ranges.set slot ⟨range.begin, newSize⟩ =
      XLargeState.resize range.begin newSize ranges := by
  refine List.ext_getElem? fun i => ?_
  rw [XLargeState.resize, List.getElem?_map, List.getElem?_set]
  by_cases eq : slot = i
  · subst eq
    obtain ⟨lt, -⟩ := List.getElem?_eq_some_iff.mp at_slot
    rw [if_pos rfl, if_pos lt, at_slot, Option.map_some, if_pos rfl]
  · rw [if_neg eq]
    cases at_i : ranges[i]? with
    | none => rfl
    | some other =>
      have ne : other.begin ≠ range.begin := by
        intro same
        obtain ⟨lt_i, get_i⟩ := List.getElem?_eq_some_iff.mp at_i
        obtain ⟨lt, get⟩ := List.getElem?_eq_some_iff.mp at_slot
        have inj := @List.Nodup.getElem_inj_iff _ _ nodup slot (by simpa using lt) i
          (by simpa using lt_i)
        exact eq (inj.mp (by simp [get, get_i, same]))
      simp [ne]

theorem resize_begins (newSize : Nat) :
    (XLargeState.resize object newSize ranges).map (·.begin) = ranges.map (·.begin) := by
  rw [XLargeState.resize, List.map_map]
  refine List.map_congr_left fun r _ => ?_
  by_cases eq : r.begin = object <;> simp [eq]

end Begins

namespace XLargeState

/-! ## Which histories keep the table exact -/

section Steps

omit [DecidableEq Thread]

/-- The table is exact, and the calls on their way are to shrink live objects, each its own. -/
structure Inv (s : XLargeState Thread) : Prop where
  exact : s.Exact
  shrinking : ∀ {t object newSize buffer slot}, s.pcs t = .shrinking object newSize buffer slot →
    ∃ size, ⟨object, size⟩ ∈ s.live ∧ newSize < size
  distinct : ∀ {t t' object newSize buffer slot newSize' buffer' slot'},
    s.pcs t = .shrinking object newSize buffer slot →
    s.pcs t' = .shrinking object newSize' buffer' slot' → t = t'

theorem inv_init : (init : XLargeState Thread).Inv where
  exact := ⟨List.nodup_nil, List.Perm.nil⟩
  shrinking := fun pc => by cases pc
  distinct := fun pc => by cases pc

variable {s s' : XLargeState Thread} {t : Thread}

theorem Exact.begins (exact : s.Exact) : (s.table.ranges.map (·.begin)).Nodup :=
  (exact.2.map _).nodup_iff.mpr exact.1

/-- A live object is found, in the slot that holds its entry. -/
theorem Exact.find (exact : s.Exact) {object : Nat} (mem : object ∈ s.live.map (·.begin)) :
    ∃ i range, s.table.find object = some i ∧ s.table.ranges[i]? = some range ∧
      range.begin = object ∧ range ∈ s.live := by
  obtain ⟨i, found⟩ := XLargeTable.exists_find ((exact.2.map _).mem_iff.mpr mem)
  obtain ⟨range, at_i, begins⟩ := XLargeTable.find_spec found
  exact ⟨i, range, found, at_i, begins, exact.2.mem_iff.mp (List.mem_of_getElem? at_i)⟩

theorem Exact.push (exact : s.Exact) {range : Range} (new : range.begin ∉ s.live.map (·.begin)) :
    ((range :: s.live).map (·.begin)).Nodup ∧
      (s.table.ranges ++ [range]).Perm (range :: s.live) := by
  refine ⟨List.nodup_cons.mpr ⟨new, exact.1⟩, ?_⟩
  exact (List.perm_append_singleton _ _).trans (exact.2.cons _)

theorem Exact.pop (exact : s.Exact) {i : Nat} {range : Range}
    (at_i : s.table.ranges[i]? = some range) :
    ((s.live.filter (·.begin ≠ range.begin)).map (·.begin)).Nodup ∧
      (popAt s.table.ranges i).Perm (s.live.filter (·.begin ≠ range.begin)) := by
  refine ⟨exact.1.sublist (List.filter_sublist.map _), ?_⟩
  have perm := popAt_perm at_i
  have others : ∀ r ∈ popAt s.table.ranges i, r.begin ≠ range.begin := by
    have nodup := (perm.map (·.begin)).nodup_iff.mpr exact.begins
    rw [List.map_cons, List.nodup_cons] at nodup
    exact fun r mem eq => nodup.1 (List.mem_map.mpr ⟨r, mem, eq⟩)
  have filtered := (perm.trans exact.2).filter (fun r => decide (r.begin ≠ range.begin))
  rwa [List.filter_cons_of_neg (by simp), List.filter_eq_self.mpr (by simpa using others)]
    at filtered

theorem Exact.resize (exact : s.Exact) {slot : Nat} {range : Range}
    (at_slot : s.table.ranges[slot]? = some range) (newSize : Nat) :
    ((XLargeState.resize range.begin newSize s.live).map (·.begin)).Nodup ∧
      (s.table.ranges.set slot ⟨range.begin, newSize⟩).Perm
        (XLargeState.resize range.begin newSize s.live) := by
  rw [resize_begins, set_eq_resize exact.begins at_slot]
  exact ⟨exact.1, exact.2.map _⟩

/-- The calls on their way after thread `t` has moved on. -/
theorem Inv.setPc [DecidableEq Thread] (inv : s.Inv) {pc : XLargePc} {table : XLargeTable}
    {live : List Range} (exact : { s.setPc t pc with table := table, live := live }.Exact)
    (own : ∀ object newSize buffer slot, pc = .shrinking object newSize buffer slot →
      (∃ size, ⟨object, size⟩ ∈ live ∧ newSize < size) ∧ ∀ t', (s.pcs t').object ≠ some object)
    (others : ∀ t' ≠ t, ∀ object newSize buffer slot,
      s.pcs t' = .shrinking object newSize buffer slot →
        ∀ size, ⟨object, size⟩ ∈ s.live → ⟨object, size⟩ ∈ live) :
    { s.setPc t pc with table := table, live := live }.Inv := by
  have pcs : ∀ {t' object newSize buffer slot},
      update s.pcs t pc t' = .shrinking object newSize buffer slot →
      t' = t ∧ pc = .shrinking object newSize buffer slot ∨
        t' ≠ t ∧ s.pcs t' = .shrinking object newSize buffer slot := by
    intro t' object newSize buffer slot eq
    rw [Function.update_apply] at eq
    split_ifs at eq with same
    · exact .inl ⟨same, eq⟩
    · exact .inr ⟨same, eq⟩
  refine ⟨exact, ?_, ?_⟩
  · intro t' object newSize buffer slot eq
    rcases pcs eq with ⟨-, eq⟩ | ⟨ne, eq⟩
    · exact (own _ _ _ _ eq).1
    · obtain ⟨size, mem, lt⟩ := inv.shrinking eq
      exact ⟨size, others t' ne object _ _ _ eq size mem, lt⟩
  · intro t₁ t₂ object newSize buffer slot newSize' buffer' slot' pc₁ pc₂
    rcases pcs pc₁ with ⟨rfl, eq⟩ | ⟨-, eq⟩ <;> rcases pcs pc₂ with ⟨rfl, eq'⟩ | ⟨-, eq'⟩
    · rfl
    · exact absurd (by rw [eq']; rfl) ((own _ _ _ _ eq).2 t₂)
    · exact absurd (by rw [eq]; rfl) ((own _ _ _ _ eq').2 t₁)
    · exact inv.distinct eq eq'

variable {P : Platform}

theorem Inv.allocate (inv : s.Inv) {range : Range} {buffer : Nat}
    (new : range.begin ∉ s.live.map (·.begin)) :
    { s with table := s.table.push P buffer range, live := range :: s.live }.Inv where
  exact := by
    rw [Exact, XLargeTable.push_ranges]
    exact inv.exact.push new
  shrinking := fun eq => by
    obtain ⟨size, mem, lt⟩ := inv.shrinking eq
    exact ⟨size, List.mem_cons_of_mem _ mem, lt⟩
  distinct := inv.distinct

variable [DecidableEq Thread]

theorem Inv.deallocate (inv : s.Inv) {object buffer : Nat} (available : s.Available object) :
    ∃ s', s.step P (.deallocate t object buffer) = some s' ∧ s'.Inv := by
  obtain ⟨i, range, found, at_i, rfl, -⟩ := inv.exact.find available.1
  have eq : s.step P (.deallocate t range.begin buffer) = some
      { s.setPc t (.unmapping range) with
        table := s.table.pop P buffer i
        live := s.live.filter (·.begin ≠ range.begin) } := by
    simp only [step, found, Option.bind_some, at_i, Option.map_some]
  refine ⟨_, eq, inv.setPc ?_ ?_ ?_⟩
  · rw [Exact, XLargeTable.pop_ranges]
    exact inv.exact.pop at_i
  · intro object newSize buffer slot eq
    cases eq
  · intro t' _ object newSize buffer slot pc size mem
    refine List.mem_filter.mpr ⟨mem, ?_⟩
    have ne : object ≠ range.begin := by
      rintro rfl
      exact available.2 t' (by rw [pc]; rfl)
    simpa using ne

theorem Inv.reallocate (inv : s.Inv) {object newSize : Nat} (available : s.Available object) :
    ∃ s', s.step P (.reallocate t object newSize) = some s' ∧ s'.Inv := by
  obtain ⟨i, range, found, at_i, rfl, live⟩ := inv.exact.find available.1
  refine ⟨s.shrink P t newSize i range, ?_, ?_⟩
  · simp only [step, found, Option.bind_some, at_i, Option.map_some]
  have pos := vmPageSize_pos P
  unfold shrink
  dsimp only
  split_ifs with shrinks
  · refine inv.setPc inv.exact ?_ fun _ _ _ _ _ _ _ _ mem => mem
    intro object newSize buffer slot eq
    obtain ⟨rfl, rfl, -, -⟩ := by simpa only [XLargePc.shrinking.injEq] using eq
    exact ⟨⟨range.size, live, by omega⟩, available.2⟩
  · exact inv

/-- The write of a shrinking `reallocate`, when it goes to the object's entry. -/
theorem Inv.finishReallocate (inv : s.Inv) {object newSize buffer slot : Nat}
    (pc : s.pcs t = .shrinking object newSize buffer slot)
    (unmoved : s.Unmoved (.finishReallocate t)) :
    ∃ s', s.step P (.finishReallocate t) = some s' ∧ s'.Inv := by
  simp only [Unmoved, pc] at unmoved
  obtain ⟨rfl, own⟩ := unmoved
  obtain ⟨range, at_slot, rfl⟩ := Option.map_eq_some_iff.mp own
  have eq : s.step P (.finishReallocate t) = some
      { s.setPc t .idle with
        table := { s.table with ranges := s.table.ranges.set slot ⟨range.begin, newSize⟩ }
        live := resize range.begin newSize s.live } := by
    simp only [step, pc, XLargeTable.write, if_pos, Option.map_some]
  refine ⟨_, eq, inv.setPc ?_ ?_ ?_⟩
  · exact inv.exact.resize at_slot newSize
  · intro object newSize buffer slot eq
    cases eq
  · intro t' ne object newSize' buffer slot' pc' size mem
    refine List.mem_map.mpr ⟨_, mem, if_neg ?_⟩
    rintro rfl
    exact ne (inv.distinct pc' pc)

/-- A step that meets the condition. -/
theorem Inv.keeps (inv : s.Inv) {action : XLargeAction Thread} (legal : s.Legal action)
    (unmoved : s.Unmoved action) : ∃ s', s.step P action = some s' ∧ s'.Inv := by
  cases action with
  | allocate t size result buffer =>
    cases result with
    | none => exact ⟨s, rfl, inv⟩
    | some object => exact ⟨_, rfl, inv.allocate (legal.2 object rfl)⟩
  | deallocate t object buffer => exact inv.deallocate legal.2
  | finishDeallocate t =>
    refine ⟨_, rfl, inv.setPc inv.exact ?_ fun _ _ _ _ _ _ _ _ mem => mem⟩
    intro object newSize buffer slot eq
    cases eq
  | reallocate t object newSize => exact inv.reallocate legal.2
  | finishReallocate t =>
    cases pc : s.pcs t with
    | shrinking object newSize buffer slot => exact inv.finishReallocate pc unmoved
    | idle => simp [Legal, pc, XLargePc.IsShrinking] at legal
    | unmapping range => simp [Legal, pc, XLargePc.IsShrinking] at legal

/-- A write to another slot: it has changed the entry of another object, or it has not changed the
entry of its own. -/
theorem Inv.breaks (inv : s.Inv) {action : XLargeAction Thread} (moved : ¬ s.Unmoved action)
    (eq : s.step P action = some s') : ¬ s'.Exact := by
  cases action with
  | finishReallocate t =>
    obtain ⟨object, newSize, buffer, slot, pc⟩ : ∃ object newSize buffer slot,
        s.pcs t = .shrinking object newSize buffer slot := by
      cases pc : s.pcs t with
      | shrinking object newSize buffer slot => exact ⟨object, newSize, buffer, slot, rfl⟩
      | idle => simp [Unmoved, pc] at moved
      | unmapping range => simp [Unmoved, pc] at moved
    simp only [Unmoved, pc] at moved
    simp only [step, pc, XLargeTable.write] at eq
    split_ifs at eq with same
    · obtain rfl := Option.some.inj eq
      obtain ⟨size, live, lt⟩ := inv.shrinking pc
      rintro ⟨-, perm⟩
      cases at_slot : s.table.ranges[slot]? with
      | none =>
        -- Behind the end: the object's entry still has the old size.
        have unchanged : s.table.ranges.set slot ⟨object, newSize⟩ = s.table.ranges :=
          List.set_eq_of_length_le (List.getElem?_eq_none_iff.mp at_slot)
        have mem := perm.mem_iff.mp (unchanged ▸ inv.exact.2.mem_iff.mpr live)
        obtain ⟨r, -, resized⟩ := List.mem_map.mp mem
        split_ifs at resized with own
        · have := (Range.mk.inj resized).2
          omega
        · exact own (congrArg Range.begin resized)
      | some range =>
        -- The entry of another object is overwritten, so its begin is gone.
        have other : range.begin ≠ object := fun own => moved ⟨same, by rw [at_slot, ← own]; rfl⟩
        obtain ⟨lt_length, at_slot⟩ := List.getElem?_eq_some_iff.mp at_slot
        have rest := (List.getElem_cons_eraseIdx_perm lt_length).map (·.begin)
        have nodup := rest.nodup_iff.mpr inv.exact.begins
        rw [at_slot, List.map_cons, List.nodup_cons] at nodup
        have kept : range.begin ∈ (s.table.ranges.set slot ⟨object, newSize⟩).map (·.begin) := by
          rw [(perm.map (·.begin)).mem_iff, resize_begins, ← (inv.exact.2.map (·.begin)).mem_iff,
            ← at_slot]
          exact List.mem_map_of_mem (List.getElem_mem lt_length)
        rw [((List.set_perm_cons_eraseIdx lt_length _).map (·.begin)).mem_iff, List.map_cons,
          List.mem_cons] at kept
        exact kept.elim other nodup.1
    · cases eq
  | _ => exact absurd trivial moved

end Steps

/-- A history keeps the table exact at every point exactly if no shrinking `reallocate` finds its
entry moved; then no assertion fails either, and in the end the table has exactly one range for each
live object, with its size. -/
theorem xLarge_exact_iff (P : Platform) (actions : List (XLargeAction Thread))
    (legal : Lib.Runs.Every (step P) Legal init actions) :
    (Lib.Runs.Always (step P) Exact init actions ↔
      Lib.Runs.Every (step P) Unmoved init actions) ∧
    (Lib.Runs.Every (step P) Unmoved init actions →
      ∃ s, Lib.Runs.run (step P) init actions = some s ∧
        ∀ range, s.table.ranges.count range = if range ∈ s.live then 1 else 0) := by
  have iff : Lib.Runs.Always (step P) Exact init actions ↔
      Lib.Runs.Every (step P) Unmoved init actions :=
    Lib.Runs.always_iff_every Inv.exact (fun inv legal unmoved => inv.keeps legal unmoved)
      (fun inv _ moved eq => inv.breaks moved eq) inv_init legal
  refine ⟨iff, fun unmoved => ?_⟩
  obtain ⟨s, run, nodup, perm⟩ := (iff.mpr unmoved).last
  refine ⟨s, run, fun range => ?_⟩
  rw [perm.count_eq]
  exact (List.Nodup.of_map _ nodup).count

/-- One thread shrinks an object while another allocates; nothing is moved. -/
def shrinkAndAllocate : List (XLargeAction Bool) :=
  [.allocate true 4194304 (some 4194304) 1, .reallocate true 4194304 2097152,
    .allocate false 4194304 (some 8388608) 2, .finishReallocate true]

theorem shrinkAndAllocate_exact :
    ∃ s, Lib.Runs.run (step .other) init shrinkAndAllocate = some s ∧
      ∀ range, s.table.ranges.count range = if range ∈ s.live then 1 else 0 := by
  exact (xLarge_exact_iff .other shrinkAndAllocate (by decide +kernel)).2 (by decide +kernel)

/-- The first object is freed while the second is being shrunk, so the entry of the second moves to
the first slot; a third object gets the second slot, and the write of the shrunk size goes there. -/
def freeWhileShrinking : List (XLargeAction Bool) :=
  [.allocate true 4194304 (some 4194304) 1, .allocate true 4194304 (some 8388608) 2,
    .reallocate true 8388608 2097152, .deallocate false 4194304 3, .finishDeallocate false,
    .allocate false 4194304 (some 12582912) 4, .finishReallocate true]

theorem freeWhileShrinking_corrupts :
    Lib.Runs.Every (step .other) Legal init freeWhileShrinking ∧
    ∃ s, Lib.Runs.run (step .other) init freeWhileShrinking = some s ∧
      (∀ t, s.pcs t = .idle) ∧
      s.live = [⟨12582912, 4194304⟩, ⟨8388608, 2097152⟩] ∧
      s.table.ranges = [⟨8388608, 4194304⟩, ⟨8388608, 2097152⟩] := by
  have run : (Lib.Runs.run (step .other) init freeWhileShrinking).map
      (fun s => (s.pcs true, s.pcs false, s.live, s.table.ranges)) =
        some (.idle, .idle, [⟨12582912, 4194304⟩, ⟨8388608, 2097152⟩],
          [⟨8388608, 4194304⟩, ⟨8388608, 2097152⟩]) := by
    decide +kernel
  obtain ⟨s, run, eq⟩ := Option.map_eq_some_iff.mp run
  simp only [Prod.mk.injEq] at eq
  obtain ⟨idle, idle', live, ranges⟩ := eq
  refine ⟨by decide +kernel, s, run, fun t => ?_, live, ranges⟩
  cases t
  · exact idle'
  · exact idle

end XLargeState

end Odyssey.Bmalloc
