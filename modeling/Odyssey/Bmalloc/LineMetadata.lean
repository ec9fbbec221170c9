import Mathlib.Algebra.Ring.Nat
import Mathlib.Tactic.Ring
import Mathlib.Tactic.Linarith

/-!
# Size classes and line metadata

The constants of `Sizes.h` for small and medium objects, and the table that
`Heap::initializeLineMetadata` fills in: for every size class and every line of a page, where the
first object that begins in the line starts and how many objects begin in it.

The objects of a class sit on one grid: object number `n` of a page starts at `n * objectSize`.
`firstObject P c l` is the number of the first object that begins in line `l`, and the table is
exactly its description line by line.
-/

namespace Odyssey.Bmalloc

/-- The two values of `vmPageSize`. -/
inductive Platform where
  | ios
  | other
  deriving DecidableEq, Repr

/-- `SmallTraits` and `MediumTraits`. -/
inductive Kind where
  | small
  | medium
  deriving DecidableEq, Repr

def alignment : Nat := 8

def vmPageSize : Platform → Nat
  | .ios => 16 * 1024
  | .other => 4 * 1024

def superChunkSize : Nat := 4 * 1024 * 1024

def mediumMax : Nat := 1024

/-- `smallLineSize` and `mediumLineSize`. -/
def Kind.lineSize : Kind → Nat
  | .small => 256
  | .medium => 1024

/-- `smallChunkSize` and `mediumChunkSize`. -/
def chunkSize : Nat := superChunkSize / 4

/-- `Page::lineCount`. -/
def lineCount (P : Platform) (k : Kind) : Nat :=
  vmPageSize P / k.lineSize

def bumpRangeCacheCapacity (P : Platform) : Nat :=
  vmPageSize P / Kind.small.lineSize / 2

def deallocatorLogCapacity : Nat := 256

/-- A size class, an index below `mediumMax / alignment`. -/
abbrev SizeClass := Fin 128

instance sizeClasses_neZero : NeZero 128 := ⟨by decide⟩

/-- `sizeClass`, with the wrap of `size - 1` at zero and the mask of the source. -/
def sizeClass (size : UInt64) : SizeClass :=
  ⟨((size - 1) / 8).toNat % 128, Nat.mod_lt _ (by decide)⟩

def objectSize (c : SizeClass) : Nat :=
  (c.val + 1) * alignment

/-- The side of the heap that serves a class (`allocateBumpRangeSlowCase`). -/
def SizeClass.kind (c : SizeClass) : Kind :=
  if c ≤ sizeClass 256 then .small else .medium

theorem objectSize_pos (c : SizeClass) : 0 < objectSize c := by
  simp [objectSize, alignment]

theorem objectSize_le_lineSize (c : SizeClass) : objectSize c ≤ c.kind.lineSize := by
  have small : sizeClass 256 = 31 := by decide
  unfold SizeClass.kind
  split
  · rename_i h
    rw [small, Fin.le_def] at h
    simp only [objectSize, alignment, Kind.lineSize]
    change c.val ≤ 31 at h
    omega
  · simp only [objectSize, alignment, Kind.lineSize]
    omega

theorem Kind.lineSize_pos (k : Kind) : 0 < k.lineSize := by
  cases k <;> decide

theorem lineCount_mul_lineSize (P : Platform) (k : Kind) :
    lineCount P k * k.lineSize = vmPageSize P := by
  cases P <;> cases k <;> decide

theorem two_le_lineCount (P : Platform) (k : Kind) : 2 ≤ lineCount P k := by
  cases P <;> cases k <;> decide

theorem vmPageSize_pos (P : Platform) : 0 < vmPageSize P := by
  cases P <;> decide

/-! ## The table -/

structure LineMetadata where
  startOffset : Nat
  objectCount : Nat
  deriving DecidableEq, Repr

/-- The quotient, rounded up, and the remainder. -/
def divideRoundingUp (numerator denominator : Nat) : Nat × Nat :=
  let remainder := numerator % denominator
  (if remainder ≠ 0 then numerator / denominator + 1 else numerator / denominator, remainder)

/-- How far the last object of a line reaches into the next one. -/
def nextStartOffset (size remainder : Nat) : Nat :=
  if remainder ≠ 0 then size - remainder else 0

/-- The rows of one class from a line on, `lines` lines before the last one. The last line rounds
down because it may not overlap into the next page. -/
def lineTable (lineSize size : Nat) : (lines : Nat) → (startOffset : Nat) → List LineMetadata
  | 0, startOffset => [⟨startOffset, (lineSize - startOffset) / size⟩]
  | lines + 1, startOffset =>
    let (objectCount, remainder) := divideRoundingUp (lineSize - startOffset) size
    ⟨startOffset, objectCount⟩ ::
      lineTable lineSize size lines (nextStartOffset size remainder)

/-- `initializeLineMetadata` for one class. -/
def initializeLineMetadata (P : Platform) (c : SizeClass) : List LineMetadata :=
  lineTable c.kind.lineSize (objectSize c) (lineCount P c.kind - 1) 0

/-- `m_smallLineMetadata[c][l]` or `m_mediumLineMetadata[c][l]`. -/
def lineMetadata (P : Platform) (c : SizeClass) (l : Nat) : LineMetadata :=
  (initializeLineMetadata P c).getD l ⟨0, 0⟩

/-- The number of the first object of a page that begins in line `l` or later. -/
def firstObject (P : Platform) (c : SizeClass) (l : Nat) : Nat :=
  ((List.range l).map fun i => (lineMetadata P c i).objectCount).sum

theorem divideRoundingUp_spec (numerator : Nat) {denominator : Nat} (pos : 0 < denominator) :
    (divideRoundingUp numerator denominator).1 * denominator = numerator +
        nextStartOffset denominator (divideRoundingUp numerator denominator).2 ∧
      nextStartOffset denominator (divideRoundingUp numerator denominator).2 < denominator := by
  have lt := Nat.mod_lt numerator pos
  have div := Nat.div_add_mod' numerator denominator
  by_cases zero : numerator % denominator = 0
  · simp only [divideRoundingUp, nextStartOffset, zero, ne_eq, not_true, if_false]
    omega
  · simp only [divideRoundingUp, nextStartOffset, ne_eq, zero, not_false_iff, if_true, Nat.add_mul,
      Nat.one_mul]
    omega

section Table

variable (lineSize size : Nat)

theorem lineTable_zero (lines startOffset : Nat) (d : LineMetadata) :
    ((lineTable lineSize size lines startOffset).getD 0 d).startOffset = startOffset := by
  cases lines <;> rfl

theorem lineTable_last (lines startOffset : Nat) (d : LineMetadata) :
    ((lineTable lineSize size lines startOffset).getD lines d).objectCount =
      (lineSize - ((lineTable lineSize size lines startOffset).getD lines d).startOffset) /
        size := by
  induction lines generalizing startOffset with
  | zero => rfl
  | succ lines ih => simpa only [lineTable, List.getD_cons_succ] using ih _

theorem lineTable_succ {lines i : Nat} (startOffset : Nat) (d : LineMetadata) (h : i < lines) :
    let row := (lineTable lineSize size lines startOffset).getD i d
    let next := (lineTable lineSize size lines startOffset).getD (i + 1) d
    let division := divideRoundingUp (lineSize - row.startOffset) size
    row.objectCount = division.1 ∧
      next.startOffset = nextStartOffset size division.2 := by
  induction lines generalizing startOffset i with
  | zero => omega
  | succ lines ih =>
    cases i with
    | zero =>
      refine ⟨rfl, ?_⟩
      simp only [lineTable, List.getD_cons_succ, List.getD_cons_zero]
      exact lineTable_zero ..
    | succ i => simpa only [lineTable, List.getD_cons_succ] using ih _ (by omega)

end Table

variable {P : Platform} {c : SizeClass} {l : Nat}

theorem firstObject_succ :
    firstObject P c (l + 1) = firstObject P c l + (lineMetadata P c l).objectCount := by
  simp [firstObject, List.range_succ]

/-- The start offsets lie on the grid: no line begins with a gap of a whole object. -/
theorem startOffset_spec (h : l < lineCount P c.kind) :
    (lineMetadata P c l).startOffset + l * c.kind.lineSize = firstObject P c l * objectSize c ∧
      (lineMetadata P c l).startOffset < objectSize c := by
  induction l with
  | zero =>
    have start : (lineMetadata P c 0).startOffset = 0 := lineTable_zero ..
    simp [start, objectSize_pos, firstObject]
  | succ l ih =>
    obtain ⟨grid, lt⟩ := ih (by omega)
    obtain ⟨count, next⟩ := lineTable_succ c.kind.lineSize (objectSize c) 0 ⟨0, 0⟩
      (show l < lineCount P c.kind - 1 by omega)
    change (lineMetadata P c l).objectCount =
      (divideRoundingUp (c.kind.lineSize - (lineMetadata P c l).startOffset) _).1 at count
    change (lineMetadata P c (l + 1)).startOffset = nextStartOffset _
      (divideRoundingUp (c.kind.lineSize - (lineMetadata P c l).startOffset) _).2 at next
    obtain ⟨rounded, lt'⟩ := divideRoundingUp_spec
      (c.kind.lineSize - (lineMetadata P c l).startOffset) (objectSize_pos c)
    have le := objectSize_le_lineSize c
    rw [← next, ← count] at rounded
    rw [firstObject_succ, Nat.succ_mul, Nat.add_mul (firstObject P c l), rounded, ← grid]
    exact ⟨by omega, next ▸ lt'⟩

/-- The last line holds the objects that still fit in the page. -/
theorem lastLine_objectCount :
    (lineMetadata P c (lineCount P c.kind - 1)).objectCount =
      (c.kind.lineSize - (lineMetadata P c (lineCount P c.kind - 1)).startOffset) /
        objectSize c :=
  lineTable_last ..

theorem firstObject_lineCount_mul_le :
    firstObject P c (lineCount P c.kind) * objectSize c ≤ vmPageSize P := by
  have two := two_le_lineCount P c.kind
  obtain ⟨last, eq⟩ : ∃ last, lineCount P c.kind = last + 1 := ⟨lineCount P c.kind - 1, by omega⟩
  obtain ⟨grid, lt⟩ := startOffset_spec (P := P) (c := c) (l := last) (by omega)
  have count := lastLine_objectCount (P := P) (c := c)
  have le := objectSize_le_lineSize c
  have page := lineCount_mul_lineSize P c.kind
  rw [eq, Nat.add_sub_cancel] at count
  rw [eq, Nat.succ_mul] at page
  have fits := Nat.div_mul_le_self (c.kind.lineSize - (lineMetadata P c last).startOffset)
    (objectSize c)
  rw [eq, firstObject_succ, Nat.add_mul, count, ← grid]
  omega

/-- Every line but possibly the last one begins an object. -/
theorem objectCount_pos (h : l + 1 < lineCount P c.kind) :
    0 < (lineMetadata P c l).objectCount := by
  obtain ⟨grid, lt⟩ := startOffset_spec (P := P) (c := c) (l := l) (by omega)
  obtain ⟨grid', -⟩ := startOffset_spec (P := P) (c := c) (l := l + 1) h
  have le := objectSize_le_lineSize c
  by_contra zero
  rw [firstObject_succ, Nat.eq_zero_of_not_pos zero, add_zero, ← grid, Nat.succ_mul] at grid'
  omega

/-- Where the objects that begin in a line are. -/
theorem object_in_line {n : Nat} (h : l < lineCount P c.kind) (ge : firstObject P c l ≤ n)
    (lt : n < firstObject P c (l + 1)) :
    n * objectSize c / c.kind.lineSize = l ∧ (n + 1) * objectSize c ≤ vmPageSize P := by
  obtain ⟨grid, -⟩ := startOffset_spec h
  have pos := objectSize_pos c
  have le := objectSize_le_lineSize c
  have page := lineCount_mul_lineSize P c.kind
  have lower := Nat.mul_le_mul_right (objectSize c) ge
  have upper := Nat.mul_le_mul_right (objectSize c) (Nat.succ_le_of_lt lt)
  rw [Nat.succ_mul] at upper
  suffices n * objectSize c < (l + 1) * c.kind.lineSize ∧ (n + 1) * objectSize c ≤ vmPageSize P by
    refine ⟨?_, this.2⟩
    rw [Nat.div_eq_iff c.kind.lineSize_pos]
    rw [Nat.succ_mul] at this
    constructor <;> omega
  rw [Nat.succ_mul n]
  by_cases last : l + 1 = lineCount P c.kind
  · have fits := firstObject_lineCount_mul_le (P := P) (c := c)
    rw [← last] at fits page
    omega
  · obtain ⟨grid', lt'⟩ := startOffset_spec (P := P) (c := c) (l := l + 1) (by omega)
    have room := Nat.mul_le_mul_right c.kind.lineSize (show l + 1 + 1 ≤ lineCount P c.kind by omega)
    rw [Nat.succ_mul (l + 1)] at room
    omega

/-- If an object of the class fits in the page and begins in the last line, the table says so. -/
theorem lastLine_objectCount_ne_zero {n : Nat} (fits : (n + 1) * objectSize c ≤ vmPageSize P)
    (begins : n * objectSize c / c.kind.lineSize = lineCount P c.kind - 1) :
    (lineMetadata P c (lineCount P c.kind - 1)).objectCount ≠ 0 := by
  have two := two_le_lineCount P c.kind
  have pos := objectSize_pos c
  have page := lineCount_mul_lineSize P c.kind
  obtain ⟨last, eq⟩ : ∃ last, lineCount P c.kind = last + 1 := ⟨lineCount P c.kind - 1, by omega⟩
  obtain ⟨grid, lt⟩ := startOffset_spec (P := P) (c := c) (l := last) (by omega)
  have count := lastLine_objectCount (P := P) (c := c)
  rw [eq, Nat.add_sub_cancel] at begins count ⊢
  rw [Nat.div_eq_iff c.kind.lineSize_pos] at begins
  rw [eq, Nat.succ_mul] at page
  have first : firstObject P c last ≤ n := by
    by_contra gt
    have := Nat.mul_le_mul_right (objectSize c) (show n + 1 ≤ firstObject P c last by omega)
    rw [Nat.succ_mul] at this
    omega
  have lower := Nat.mul_le_mul_right (objectSize c) first
  rw [Nat.succ_mul] at fits
  have room : objectSize c ≤ c.kind.lineSize - (lineMetadata P c last).startOffset := by omega
  rw [count]
  exact (Nat.div_pos room pos).ne'

end Odyssey.Bmalloc
