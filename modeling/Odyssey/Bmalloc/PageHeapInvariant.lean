import Mathlib.Algebra.Order.Group.Multiset
import Mathlib.Data.Finset.Card
import Mathlib.Data.Multiset.Count
import Odyssey.Bmalloc.PageHeap

/-!
# The invariant of small and medium pages

`PageHeap.Inv` ties the reference counts of one kind to the multiset of its objects that have not
been freed yet, and says what an entry of a page list may be. It is kept by each line a refill takes
(`Inv.ref`) and by each object that is freed (`Inv.derefLine`).

An entry of `pagesWithFreeLines c` may be stale, but a page that is in use for `c` and listed for
`c` has a free line: it was full when it was pushed, it is never listed twice, and a page gets the
class `c` only when the list of `c` has run empty.
-/

namespace Odyssey.Bmalloc

open Function (update)

variable {P : Platform} {k : Kind} {c : SizeClass}

/-- The number of lines of a page with a non-zero count. -/
def usedLines (P : Platform) (k : Kind) (lineRefCount : Nat → Nat) (page : Nat) : Nat :=
  ((Finset.range (lineCount P k)).filter fun i =>
    lineRefCount (page * lineCount P k + i) ≠ 0).card

theorem usedLines_congr {f g : Nat → Nat} (h : ∀ l, f l ≠ 0 ↔ g l ≠ 0) (page : Nat) :
    usedLines P k f page = usedLines P k g page := by
  simp only [usedLines, h]

theorem usedLines_le (f : Nat → Nat) (page : Nat) : usedLines P k f page ≤ lineCount P k := by
  simpa [usedLines] using Finset.card_filter_le (Finset.range (lineCount P k)) _

/-- A page with all its lines in use. -/
theorem usedLines_eq_lineCount {f : Nat → Nat} {page i : Nat}
    (h : usedLines P k f page = lineCount P k) (hi : i < lineCount P k) :
    f (page * lineCount P k + i) ≠ 0 := by
  have all :=
    Finset.filter_card_eq (s := Finset.range (lineCount P k)) (by simpa [usedLines] using h)
  exact all i (Finset.mem_range.mpr hi)

theorem pageOfLine_eq (P : Platform) (k : Kind) (line : Nat) :
    pageOfLine P k line = line / lineCount P k := by
  rw [pageOfLine, ← lineCount_mul_lineSize P k, Nat.mul_div_mul_right _ _ k.lineSize_pos]

theorem pageOfLine_add {page i : Nat} (hi : i < lineCount P k) :
    pageOfLine P k (page * lineCount P k + i) = page := by
  rw [pageOfLine_eq, Nat.mul_comm, Nat.mul_add_div (by omega), Nat.div_eq_of_lt hi, Nat.add_zero]

/-- A line taken into use adds one to its own page's count and to no other's. -/
theorem usedLines_update {f : Nat → Nat} {line v : Nat} (free : f line = 0) (hv : v ≠ 0)
    (page : Nat) :
    usedLines P k (update f line v) page =
      usedLines P k f page + if page = pageOfLine P k line then 1 else 0 := by
  split_ifs with own
  · subst own
    have two := two_le_lineCount P k
    have line_eq : pageOfLine P k line * lineCount P k + line % lineCount P k = line := by
      rw [pageOfLine_eq, Nat.div_add_mod']
    have insert_eq : ((Finset.range (lineCount P k)).filter fun i =>
          update f line v (pageOfLine P k line * lineCount P k + i) ≠ 0) =
        insert (line % lineCount P k) ((Finset.range (lineCount P k)).filter fun i =>
          f (pageOfLine P k line * lineCount P k + i) ≠ 0) := by
      ext i
      simp only [Finset.mem_filter, Finset.mem_range, Finset.mem_insert, Function.update_apply]
      by_cases eq : pageOfLine P k line * lineCount P k + i = line
      · have : i = line % lineCount P k := by omega
        simp [this, line_eq, hv, Nat.mod_lt _ (show 0 < lineCount P k by omega)]
      · have : i ≠ line % lineCount P k := by omega
        simp [eq, this]
    rw [usedLines, insert_eq, Finset.card_insert_of_notMem (by simp [line_eq, free]), usedLines]
  · rw [Nat.add_zero, usedLines, usedLines]
    congr 1
    apply Finset.filter_congr
    intro i hi
    have ne : page * lineCount P k + i ≠ line := by
      rintro rfl
      exact own (pageOfLine_add (Finset.mem_range.mp hi)).symm
    simp [Function.update_of_ne ne]

/-! ## The invariant -/

namespace PageHeap

variable {h : PageHeap} {chunks : Nat} {objects : Multiset Object}

/-- Pages that no class uses. -/
def freePages (h : PageHeap) : List Nat :=
  h.pages ++ (h.vmPages ++ h.scavenging)

/-- The object is one of the grid that the class of its page puts on the page. -/
def Placed (P : Platform) (h : PageHeap) (o : Object) : Prop :=
  ∃ page n, h.pageSizeClass page = o.sizeClass ∧
    o.address = page * vmPageSize P + n * objectSize o.sizeClass ∧
    (n + 1) * objectSize o.sizeClass ≤ vmPageSize P

/-- The counts of kind `k` are those of `objects`, which lie on their pages' grids. -/
structure Counted (P : Platform) (k : Kind) (chunks : Nat) (h : PageHeap)
    (objects : Multiset Object) : Prop where
  nodup : objects.Nodup
  kind : ∀ o ∈ objects, o.kind = k
  placed : ∀ o ∈ objects, h.Placed P o
  line : ∀ l, h.lineRefCount l = objects.countP (·.line = l)
  page : ∀ p, h.pageRefCount p = usedLines P k h.lineRefCount p
  created : ∀ p, h.pageRefCount p ≠ 0 → p < chunks * chunkPageCount P

/-- What the page lists may hold. -/
structure Listed (P : Platform) (k : Kind) (chunks : Nat) (h : PageHeap) : Prop where
  free_nodup : h.freePages.Nodup
  free : ∀ p ∈ h.freePages, h.pageRefCount p = 0 ∧ p < chunks * chunkPageCount P
  listed_nodup : ∀ c, (h.pagesWithFreeLines c).Nodup
  listed_kind : ∀ c, ∀ p ∈ h.pagesWithFreeLines c,
    c.kind = k ∧ refillEnd P c = lineCount P k ∧ p < chunks * chunkPageCount P
  listed : ∀ c, ∀ p ∈ h.pagesWithFreeLines c, h.pageRefCount p ≠ 0 → h.pageSizeClass p = c →
    h.pageRefCount p < lineCount P k

/-- What holds of the pages of kind `k` when `objects` are its objects not yet freed. -/
structure Inv (P : Platform) (k : Kind) (chunks : Nat) (h : PageHeap)
    (objects : Multiset Object) : Prop extends
    Counted P k chunks h objects, Listed P k chunks h

variable {page : Nat} {o : Object}

theorem Placed.page_eq {n : Nat}
    (address : o.address = page * vmPageSize P + n * objectSize o.sizeClass)
    (fits : (n + 1) * objectSize o.sizeClass ≤ vmPageSize P) :
    pageOfLine P o.kind o.line = page := by
  have pos := objectSize_pos o.sizeClass
  rw [Nat.succ_mul] at fits
  rw [pageOfLine_eq, Object.line, Nat.div_div_eq_div_mul, Nat.mul_comm, lineCount_mul_lineSize,
    address, Nat.mul_comm, Nat.mul_add_div (vmPageSize_pos P), Nat.div_eq_of_lt (by omega),
    Nat.add_zero]

theorem Counted.lineRefCount_pos (counted : h.Counted P k chunks objects) (ho : o ∈ objects) :
    0 < h.lineRefCount o.line := by
  rw [counted.line, Multiset.countP_pos]
  exact ⟨o, ho, rfl⟩

/-- The page of a line in use is in use. -/
theorem Counted.pageRefCount_pos (counted : h.Counted P k chunks objects) {line : Nat}
    (used : h.lineRefCount line ≠ 0) : 0 < h.pageRefCount (pageOfLine P k line) := by
  rw [counted.page, usedLines, Finset.card_pos]
  have two := two_le_lineCount P k
  refine ⟨line % lineCount P k, ?_⟩
  rw [Finset.mem_filter, Finset.mem_range, pageOfLine_eq, Nat.div_add_mod']
  exact ⟨Nat.mod_lt _ (by omega), used⟩

theorem Counted.pageSizeClass_eq (counted : h.Counted P k chunks objects) (ho : o ∈ objects) :
    h.pageSizeClass (pageOfLine P k o.line) = o.sizeClass := by
  obtain ⟨page, n, cls, address, fits⟩ := counted.placed o ho
  rw [← counted.kind o ho, Placed.page_eq address fits, cls]

theorem inv_empty : PageHeap.empty.Inv P k chunks 0 where
  nodup := Multiset.nodup_zero
  kind := by simp
  placed := by simp
  line := by simp [empty]
  page := by simp [empty, usedLines]
  created := by simp [empty]
  free_nodup := by simp [freePages, empty]
  free := by simp [freePages, empty]
  listed_nodup := by simp [empty]
  listed_kind := by simp [empty]
  listed := by simp [empty]

/-! ## Taking the free lines of a page -/

theorem refillEnd_le (P : Platform) (c : SizeClass) : refillEnd P c ≤ lineCount P c.kind := by
  unfold refillEnd
  split_ifs <;> omega

theorem lineCount_le_refillEnd (P : Platform) (c : SizeClass) :
    lineCount P c.kind ≤ refillEnd P c + 1 := by
  unfold refillEnd
  split_ifs <;> omega

theorem objectCount_pos_of_lt_refillEnd {i : Nat} (hi : i < refillEnd P c) :
    0 < (lineMetadata P c i).objectCount := by
  have le := refillEnd_le P c
  by_cases last : i + 1 < lineCount P c.kind
  · exact objectCount_pos last
  · have : i = lineCount P c.kind - 1 := by omega
    subst this
    unfold refillEnd at hi
    split_ifs at hi with zero <;> omega

/-- The objects that begin in line `i` of a page. -/
def lineRange (P : Platform) (c : SizeClass) (page i : Nat) : BumpRange :=
  ⟨(page * lineCount P c.kind + i) * c.kind.lineSize + (lineMetadata P c i).startOffset,
    (lineMetadata P c i).objectCount⟩

theorem lineRange_begin {i : Nat} (hi : i < lineCount P c.kind) :
    (lineRange P c page i).begin =
      page * vmPageSize P + firstObject P c i * objectSize c := by
  obtain ⟨grid, -⟩ := startOffset_spec hi
  change (page * lineCount P c.kind + i) * c.kind.lineSize + _ = _
  rw [Nat.add_mul, Nat.mul_assoc, lineCount_mul_lineSize, ← grid]
  omega

theorem objects_add (begin m n : Nat) :
    BumpRange.objects c ⟨begin, m + n⟩ =
      BumpRange.objects c ⟨begin, m⟩ ++ BumpRange.objects c ⟨begin + m * objectSize c, n⟩ := by
  simp [BumpRange.objects, List.range_add, Function.comp_def, Nat.add_mul, Nat.add_assoc]

theorem nodup_objects (r : BumpRange) : (r.objects c).Nodup := by
  refine List.nodup_range.map ?_
  intro i j eq
  have := (Object.mk.inj eq).2
  exact Nat.eq_of_mul_eq_mul_right (objectSize_pos c) (by omega)

theorem sizeClass_of_mem_objects {r : BumpRange} (ho : o ∈ r.objects c) :
    o.sizeClass = c := by
  obtain ⟨i, -, rfl⟩ := List.mem_map.mp ho
  rfl

theorem mem_objects_lineRange {i : Nat} (hi : i < lineCount P c.kind)
    (ho : o ∈ (lineRange P c page i).objects c) :
    o.line = page * lineCount P c.kind + i ∧
      ∃ n, o.address = page * vmPageSize P + n * objectSize c ∧
        (n + 1) * objectSize c ≤ vmPageSize P := by
  obtain ⟨j, hj, rfl⟩ := List.mem_map.mp ho
  rw [List.mem_range] at hj
  have count : (lineRange P c page i).objectCount = (lineMetadata P c i).objectCount := rfl
  obtain ⟨line, fits⟩ := object_in_line (n := firstObject P c i + j) hi (by omega)
    (by rw [firstObject_succ]; omega)
  have address : (lineRange P c page i).begin + j * objectSize c =
      page * vmPageSize P + (firstObject P c i + j) * objectSize c := by
    rw [lineRange_begin hi, Nat.add_mul]
    omega
  refine ⟨?_, firstObject P c i + j, address, fits⟩
  change ((lineRange P c page i).begin + j * objectSize c) / c.kind.lineSize = _
  rw [address, ← lineCount_mul_lineSize P c.kind, ← Nat.mul_assoc, Nat.mul_comm,
    Nat.mul_add_div c.kind.lineSize_pos, line]

/-- A page that `allocateSmallPage` has returned for `c`. -/
structure Taken (P : Platform) (chunks : Nat) (h : PageHeap) (c : SizeClass) (page : Nat) :
    Prop where
  sizeClass : h.pageSizeClass page = c
  not_free : page ∉ h.freePages
  not_listed : page ∉ h.pagesWithFreeLines c
  created : page < chunks * chunkPageCount P

section Ref

variable {page i : Nat}

theorem ref_pageRefCount_of_ne {p line n : Nat} (ne : p ≠ page) :
    (h.ref page line n).pageRefCount p = h.pageRefCount p :=
  Function.update_of_ne ne _ _

theorem Counted.ref (counted : h.Counted P c.kind chunks objects)
    (taken : h.Taken P chunks c page) (hi : i < refillEnd P c)
    (unused : h.lineRefCount (page * lineCount P c.kind + i) = 0) :
    (h.ref page (page * lineCount P c.kind + i) (lineMetadata P c i).objectCount).Counted P c.kind
      chunks (objects + (lineRange P c page i).objects c) := by
  have lt : i < lineCount P c.kind := hi.trans_le (refillEnd_le P c)
  have pos := objectCount_pos_of_lt_refillEnd hi
  refine ⟨?_, ?_, ?_, ?_, ?_, ?_⟩
  · rw [Multiset.nodup_add]
    refine ⟨counted.nodup, nodup_objects _, Multiset.disjoint_left.mpr ?_⟩
    intro o old new
    have := counted.lineRefCount_pos old
    rw [(mem_objects_lineRange lt new).1] at this
    omega
  · intro o ho
    rcases Multiset.mem_add.mp ho with old | new
    · exact counted.kind o old
    · rw [Object.kind, sizeClass_of_mem_objects new]
  · intro o ho
    rcases Multiset.mem_add.mp ho with old | new
    · exact counted.placed o old
    · obtain ⟨-, n, address, fits⟩ := mem_objects_lineRange lt new
      rw [← sizeClass_of_mem_objects new] at address fits
      exact ⟨page, n, taken.sizeClass.trans (sizeClass_of_mem_objects new).symm, address, fits⟩
  · intro l
    rw [Multiset.countP_add, ← counted.line]
    by_cases eq : l = page * lineCount P c.kind + i
    · subst eq
      have all : ((lineRange P c page i).objects c : Multiset Object).countP
          (·.line = page * lineCount P c.kind + i) = (lineMetadata P c i).objectCount := by
        rw [Multiset.countP_eq_card.mpr fun o ho => (mem_objects_lineRange lt ho).1]
        simp [BumpRange.objects, lineRange]
      rw [all, unused, Nat.zero_add]
      exact Function.update_self ..
    · have none : ((lineRange P c page i).objects c : Multiset Object).countP (·.line = l) = 0 :=
        Multiset.countP_eq_zero.mpr fun o ho eq' =>
          eq (eq'.symm.trans (mem_objects_lineRange lt ho).1)
      rw [none, Nat.add_zero]
      exact Function.update_of_ne eq _ _
  · intro p
    refine Eq.trans ?_ (usedLines_update unused pos.ne' p).symm
    rw [pageOfLine_add lt]
    by_cases eq : p = page
    · subst eq
      rw [if_pos rfl, ← counted.page]
      exact Function.update_self ..
    · rw [if_neg eq, Nat.add_zero, ← counted.page, ref_pageRefCount_of_ne eq]
  · intro p used
    by_cases eq : p = page
    · exact eq ▸ taken.created
    · exact counted.created p (ref_pageRefCount_of_ne eq ▸ used)

theorem Listed.ref (listed : h.Listed P k chunks) (taken : h.Taken P chunks c page)
    (line n : Nat) : (h.ref page line n).Listed P k chunks := by
  refine ⟨listed.free_nodup, ?_, listed.listed_nodup, listed.listed_kind, ?_⟩
  · intro p hp
    have ne : p ≠ page := fun eq => taken.not_free (eq ▸ hp)
    rw [ref_pageRefCount_of_ne ne]
    exact listed.free p hp
  · intro c' p hp used cls
    have ne : p ≠ page := by
      rintro rfl
      have : c' = c := cls.symm.trans taken.sizeClass
      exact taken.not_listed (this ▸ hp)
    rw [ref_pageRefCount_of_ne ne] at used ⊢
    exact listed.listed c' p hp used cls

/-- Taking one free line of the page adds the objects that begin in it. -/
theorem Inv.ref (inv : h.Inv P c.kind chunks objects) (taken : h.Taken P chunks c page)
    (hi : i < refillEnd P c) (unused : h.lineRefCount (page * lineCount P c.kind + i) = 0) :
    (h.ref page (page * lineCount P c.kind + i) (lineMetadata P c i).objectCount).Inv P c.kind
      chunks (objects + (lineRange P c page i).objects c) :=
  ⟨inv.toCounted.ref taken hi unused, inv.toListed.ref taken _ _⟩

end Ref

theorem Taken.ref (taken : h.Taken P chunks c page) (line n : Nat) :
    (h.ref page line n).Taken P chunks c page :=
  ⟨taken.sizeClass, taken.not_free, taken.not_listed, taken.created⟩

/-- The objects of a list of ranges. -/
def rangesObjects (c : SizeClass) (ranges : List BumpRange) : Multiset Object :=
  (ranges.flatMap (·.objects c) : List Object)

@[simp] theorem rangesObjects_nil : rangesObjects c [] = 0 := rfl

@[simp] theorem rangesObjects_cons (r : BumpRange) (ranges : List BumpRange) :
    rangesObjects c (r :: ranges) = (r.objects c : Multiset Object) + rangesObjects c ranges := rfl

/-- The range being merged ends where the objects of the next line begin. -/
def Reaches (P : Platform) (c : SizeClass) (page lineNumber : Nat) (range : BumpRange) : Prop :=
  range.begin + range.objectCount * objectSize c =
    page * vmPageSize P + firstObject P c lineNumber * objectSize c

theorem lineRange_reaches {i : Nat} (hi : i < lineCount P c.kind) :
    Reaches P c page (i + 1) (lineRange P c page i) := by
  rw [Reaches, lineRange_begin hi, firstObject_succ, Nat.add_mul]
  change _ + (lineMetadata P c i).objectCount * objectSize c = _
  omega

/-- Merging a free line into the range before it. -/
theorem Reaches.merge {i : Nat} {range : BumpRange} (reaches : Reaches P c page i range)
    (hi : i < lineCount P c.kind) :
    BumpRange.objects c
        { range with objectCount := range.objectCount + (lineMetadata P c i).objectCount } =
      range.objects c ++ (lineRange P c page i).objects c := by
  rw [objects_add, reaches, ← lineRange_begin hi]
  rfl

theorem Reaches.merge_reaches {i : Nat} {range : BumpRange} (reaches : Reaches P c page i range) :
    Reaches P c page (i + 1)
      { range with objectCount := range.objectCount + (lineMetadata P c i).objectCount } := by
  change range.begin + (range.objectCount + (lineMetadata P c i).objectCount) * objectSize c = _
  rw [firstObject_succ, Nat.add_mul, Nat.add_mul, ← Nat.add_assoc, reaches, Nat.add_assoc]

/-- The loops of a refill: the ranges pushed hold exactly the objects that were added. -/
theorem Inv.refillLines (lines : Nat) {lineNumber : Nat} {r : Option BumpRange}
    (inv : h.Inv P c.kind chunks objects) (taken : h.Taken P chunks c page)
    (last : lineNumber + lines = refillEnd P c)
    (reaches : ∀ range ∈ r, Reaches P c page lineNumber range) :
    ∃ new, (h.refillLines P c page lines lineNumber r).2.Inv P c.kind chunks (objects + new) ∧
      rangesObjects c (h.refillLines P c page lines lineNumber r).1 =
        rangesObjects c r.toList + new := by
  induction lines generalizing h objects lineNumber r with
  | zero =>
    refine ⟨0, ?_⟩
    cases r with
    | none => simpa [PageHeap.refillLines] using inv
    | some range => simpa [PageHeap.refillLines] using inv
  | succ lines ih =>
    have hi : lineNumber < refillEnd P c := by omega
    have lt := hi.trans_le (refillEnd_le P c)
    have last' : lineNumber + 1 + lines = refillEnd P c := by omega
    cases r with
    | none =>
      rw [PageHeap.refillLines]
      split_ifs with used
      · exact ih inv taken last' (by simp)
      · rw [ne_eq, not_not] at used
        obtain ⟨new, inv', eq⟩ := ih (inv.ref taken hi used) (taken.ref _ _) last'
          (r := some (lineRange P c page lineNumber))
          (by rintro _ ⟨⟩; exact lineRange_reaches lt)
        refine ⟨(lineRange P c page lineNumber).objects c + new, by rwa [← add_assoc], ?_⟩
        exact eq.trans (by simp)
    | some range =>
      have reaches := reaches range rfl
      rw [PageHeap.refillLines]
      dsimp only
      split_ifs with used
      · obtain ⟨new, inv', eq⟩ := ih inv taken last' (r := none) (by simp)
        refine ⟨new, inv', ?_⟩
        simp [eq]
      · rw [ne_eq, not_not] at used
        obtain ⟨new, inv', eq⟩ := ih (inv.ref taken hi used) (taken.ref _ _) last'
          (r := some { range with
            objectCount := range.objectCount + (lineMetadata P c lineNumber).objectCount })
          (by rintro _ ⟨⟩; exact reaches.merge_reaches)
        refine ⟨(lineRange P c page lineNumber).objects c + new, by rwa [← add_assoc], ?_⟩
        rw [eq]
        simp [reaches.merge lt, ← Multiset.coe_add, add_assoc]

/-- Maximal runs of free lines: at most one range for every two lines. -/
theorem length_refillLines_le (page lines lineNumber : Nat) (r : Option BumpRange) :
    (h.refillLines P c page lines lineNumber r).1.length ≤
      (lines + 1 + r.toList.length) / 2 := by
  induction lines generalizing h lineNumber r with
  | zero => cases r <;> simp [PageHeap.refillLines]
  | succ lines ih =>
    cases r with
    | none =>
      rw [PageHeap.refillLines]
      split_ifs
      · have := ih (h := h) (lineNumber + 1) none
        simp only [Option.toList, List.length_nil] at this ⊢
        omega
      · refine (ih _ _).trans ?_
        simp only [Option.toList, List.length_nil, List.length_singleton]
        omega
    | some range =>
      rw [PageHeap.refillLines]
      dsimp only
      split_ifs
      · have := ih (h := h) (lineNumber + 1) none
        simp only [Option.toList, List.length_nil, List.length_cons] at this ⊢
        omega
      · refine (ih _ _).trans ?_
        simp only [Option.toList, List.length_singleton]
        omega

theorem refillLines_some_ne_nil (lines lineNumber : Nat) (range : BumpRange) :
    (h.refillLines P c page lines lineNumber (some range)).1 ≠ [] := by
  induction lines generalizing h lineNumber range with
  | zero => simp [PageHeap.refillLines]
  | succ lines ih =>
    rw [PageHeap.refillLines]
    dsimp only
    split_ifs
    · simp
    · exact ih _ _

/-- A free line gives a range. -/
theorem refillLines_ne_nil (lines lineNumber i : Nat) (hi : lineNumber + i < lineNumber + lines)
    (unused : h.lineRefCount (page * lineCount P c.kind + (lineNumber + i)) = 0) :
    (h.refillLines P c page lines lineNumber none).1 ≠ [] := by
  induction lines generalizing lineNumber i with
  | zero => omega
  | succ lines ih =>
    rw [PageHeap.refillLines]
    split_ifs with used
    · cases i with
      | zero => exact absurd unused used
      | succ i =>
        exact ih (lineNumber + 1) i (by omega)
          (by rwa [show lineNumber + 1 + i = lineNumber + (i + 1) by omega])
    · exact refillLines_some_ne_nil _ _ _

/-- No range is empty. -/
theorem objectCount_pos_of_mem_refillLines (lines : Nat) {lineNumber : Nat} {r : Option BumpRange}
    (last : lineNumber + lines = refillEnd P c) (pos : ∀ range ∈ r, 0 < range.objectCount) :
    ∀ range ∈ (h.refillLines P c page lines lineNumber r).1, 0 < range.objectCount := by
  induction lines generalizing h lineNumber r with
  | zero =>
    cases r with
    | none => simp [PageHeap.refillLines]
    | some range => simpa [PageHeap.refillLines] using pos
  | succ lines ih =>
    have row := objectCount_pos_of_lt_refillEnd (show lineNumber < refillEnd P c by omega)
    have last' : lineNumber + 1 + lines = refillEnd P c := by omega
    cases r with
    | none =>
      rw [PageHeap.refillLines]
      split_ifs
      · exact ih last' (by simp)
      · exact ih last' (by rintro _ ⟨⟩; exact row)
    | some range =>
      rw [PageHeap.refillLines]
      dsimp only
      split_ifs
      · intro range' mem
        rcases List.mem_cons.mp mem with rfl | mem
        · exact pos range' rfl
        · exact ih (r := none) last' (by simp) range' mem
      · refine ih last' ?_
        rintro _ ⟨⟩
        exact Nat.add_pos_right _ row

/-! ## Freeing an object -/

section Deref

variable {o : Object}

/-- The counts of the lines after the object is gone. -/
theorem Counted.line_deref (counted : h.Counted P k chunks (o ::ₘ objects)) (l : Nat) :
    update h.lineRefCount o.line (h.lineRefCount o.line - 1) l = objects.countP (·.line = l) := by
  have eq := counted.line l
  rw [Multiset.countP_cons] at eq
  by_cases own : l = o.line
  · subst own
    rw [if_pos rfl] at eq
    rw [Function.update_self]
    omega
  · rw [if_neg (Ne.symm own), Nat.add_zero] at eq
    rw [Function.update_of_ne own, eq]

/-- What stays of the counts whatever happens to the lists. -/
theorem Counted.deref (counted : h.Counted P k chunks (o ::ₘ objects)) {h' : PageHeap}
    (lines : h'.lineRefCount = update h.lineRefCount o.line (h.lineRefCount o.line - 1))
    (classes : h'.pageSizeClass = h.pageSizeClass)
    (pages : ∀ p, h'.pageRefCount p = usedLines P k h'.lineRefCount p)
    (le : ∀ p, h'.pageRefCount p ≤ h.pageRefCount p) : h'.Counted P k chunks objects where
  nodup := (Multiset.nodup_cons.mp counted.nodup).2
  kind := fun o' ho' => counted.kind o' (Multiset.mem_cons_of_mem ho')
  placed := fun o' ho' => by
    simpa only [Placed, classes] using counted.placed o' (Multiset.mem_cons_of_mem ho')
  line := fun l => by rw [lines, counted.line_deref]
  page := pages
  created := fun p used => counted.created p fun zero => used (by have := le p; omega)

/-- The page counts after the last object that begins in a line is gone. -/
theorem Counted.page_deref (counted : h.Counted P k chunks objects) {line : Nat}
    (used : h.lineRefCount line ≠ 0) (p : Nat) :
    update h.pageRefCount (pageOfLine P k line) (h.pageRefCount (pageOfLine P k line) - 1) p =
      usedLines P k (update h.lineRefCount line 0) p := by
  have add := usedLines_update (P := P) (k := k) (f := update h.lineRefCount line 0)
    (Function.update_self ..) used
  simp only [Function.update_idem, Function.update_eq_self, ← counted.page] at add
  have own := add (pageOfLine P k line)
  rw [if_pos rfl] at own
  by_cases eq : p = pageOfLine P k line
  · subst eq
    rw [Function.update_self]
    omega
  · rw [Function.update_of_ne eq, add p, if_neg eq, Nat.add_zero]

/-- A page whose last line begins an object belongs to a class that can use the last line. -/
theorem Counted.refillEnd_eq (counted : h.Counted P k chunks objects) {page : Nat}
    (full : h.pageRefCount page = lineCount P k) :
    (h.pageSizeClass page).kind = k ∧ refillEnd P (h.pageSizeClass page) = lineCount P k := by
  have two := two_le_lineCount P k
  have last : lineCount P k - 1 < lineCount P k := by omega
  have used := usedLines_eq_lineCount (counted.page page ▸ full) last
  rw [counted.line, ← Nat.pos_iff_ne_zero, Multiset.countP_pos] at used
  obtain ⟨o, ho, line⟩ := used
  have kind := counted.kind o ho
  have page_eq : h.pageSizeClass page = o.sizeClass := by
    have := counted.pageSizeClass_eq ho
    rwa [line, pageOfLine_add last] at this
  obtain ⟨q, n, -, address, fits⟩ := counted.placed o ho
  rw [page_eq]
  change o.sizeClass.kind = k at kind
  subst kind
  refine ⟨rfl, if_neg (lastLine_objectCount_ne_zero fits ?_)⟩
  change o.address / o.sizeClass.kind.lineSize = _ at line
  rw [address, ← lineCount_mul_lineSize P o.sizeClass.kind, ← Nat.mul_assoc, Nat.mul_comm,
    Nat.mul_add_div o.sizeClass.kind.lineSize_pos] at line
  have lt : n * objectSize o.sizeClass / o.sizeClass.kind.lineSize <
      lineCount P o.sizeClass.kind := by
    rw [Nat.div_lt_iff_lt_mul o.sizeClass.kind.lineSize_pos, lineCount_mul_lineSize]
    rw [Nat.succ_mul] at fits
    have := objectSize_pos o.sizeClass
    omega
  have rem := congrArg (· % lineCount P o.sizeClass.kind) line
  simpa only [Nat.mul_add_mod_self_right, Nat.mod_eq_of_lt lt, Nat.mod_eq_of_lt last] using rem

theorem update_sub_one_le (f : Nat → Nat) (a p : Nat) : update f a (f a - 1) p ≤ f p := by
  rw [Function.update_apply]
  split_ifs with eq
  · subst eq
    exact Nat.sub_le _ _
  · exact Nat.le_refl _

/-- The counts are lowered and no page list changes. -/
theorem Listed.lower (listed : h.Listed P k chunks) {h' : PageHeap}
    (classes : h'.pageSizeClass = h.pageSizeClass) (free : h'.freePages = h.freePages)
    (lists : h'.pagesWithFreeLines = h.pagesWithFreeLines)
    (le : ∀ p, h'.pageRefCount p ≤ h.pageRefCount p) : h'.Listed P k chunks := by
  refine ⟨free ▸ listed.free_nodup, ?_, lists ▸ listed.listed_nodup, lists ▸ listed.listed_kind, ?_⟩
  · intro p hp
    have := listed.free p (free ▸ hp)
    exact ⟨by have := le p; omega, this.2⟩
  · intro c p hp used cls
    have lt := listed.listed c p (lists ▸ hp) (by have := le p; omega) (classes ▸ cls)
    exact (le p).trans_lt lt

/-- A full page gets a free line and is pushed to the list of its class. -/
theorem Listed.push_withFreeLines (listed : h.Listed P k chunks) {page : Nat}
    (lt : h.pageRefCount page < lineCount P k) (created : page < chunks * chunkPageCount P)
    (kind : (h.pageSizeClass page).kind = k)
    (usable : refillEnd P (h.pageSizeClass page) = lineCount P k)
    (new : page ∉ h.pagesWithFreeLines (h.pageSizeClass page)) :
    (h.setPagesWithFreeLines (h.pageSizeClass page)
      (page :: h.pagesWithFreeLines (h.pageSizeClass page))).Listed P k chunks := by
  have mem : ∀ {c p}, p ∈ update h.pagesWithFreeLines (h.pageSizeClass page)
      (page :: h.pagesWithFreeLines (h.pageSizeClass page)) c →
      p ∈ h.pagesWithFreeLines c ∨ p = page ∧ c = h.pageSizeClass page := by
    intro c p hp
    by_cases eq : c = h.pageSizeClass page
    · subst eq
      rw [Function.update_self, List.mem_cons] at hp
      exact hp.elim (fun hp => .inr ⟨hp, rfl⟩) .inl
    · rw [Function.update_of_ne eq] at hp
      exact .inl hp
  refine ⟨listed.free_nodup, listed.free, ?_, ?_, ?_⟩
  · intro c
    change (update h.pagesWithFreeLines _ _ c).Nodup
    by_cases eq : c = h.pageSizeClass page
    · subst eq
      rw [Function.update_self]
      exact List.nodup_cons.mpr ⟨new, listed.listed_nodup _⟩
    · rw [Function.update_of_ne eq]
      exact listed.listed_nodup c
  · intro c p hp
    rcases mem hp with hp | ⟨rfl, rfl⟩
    · exact listed.listed_kind c p hp
    · exact ⟨kind, usable, created⟩
  · intro c p hp used cls
    rcases mem hp with hp | ⟨rfl, -⟩
    · exact listed.listed c p hp used cls
    · exact lt

/-- A page without objects is pushed to the pages list. -/
theorem Listed.push_pages (listed : h.Listed P k chunks) {page : Nat}
    (unused : h.pageRefCount page = 0) (created : page < chunks * chunkPageCount P)
    (new : page ∉ h.freePages) : { h with pages := page :: h.pages }.Listed P k chunks := by
  refine ⟨List.nodup_cons.mpr ⟨new, listed.free_nodup⟩, ?_, listed.listed_nodup,
    listed.listed_kind, listed.listed⟩
  intro p hp
  rcases List.mem_cons.mp hp with rfl | hp
  · exact ⟨unused, created⟩
  · exact listed.free p hp

theorem Listed.deallocateLine (listed : h.Listed P k chunks)
    (counted : h.Counted P k chunks objects) {line : Nat} (used : h.lineRefCount line ≠ 0)
    (lines : Nat → Nat) :
    ({ h with lineRefCount := lines }.deallocateLine P k line).Listed P k chunks := by
  have pos := counted.pageRefCount_pos used
  have created := counted.created _ pos.ne'
  have own : update h.pageRefCount (pageOfLine P k line)
      (h.pageRefCount (pageOfLine P k line) - 1) (pageOfLine P k line) =
      h.pageRefCount (pageOfLine P k line) - 1 := Function.update_self ..
  have lowered : { h with
      lineRefCount := lines
      pageRefCount := update h.pageRefCount (pageOfLine P k line)
        (h.pageRefCount (pageOfLine P k line) - 1) }.Listed P k chunks :=
    listed.lower rfl rfl rfl (update_sub_one_le _ _)
  unfold PageHeap.deallocateLine
  dsimp only
  split_ifs with full one
  · obtain ⟨kind, usable⟩ := counted.refillEnd_eq full
    refine lowered.push_withFreeLines (own.trans_lt (by omega)) created kind usable fun mem => ?_
    exact absurd (listed.listed _ _ mem pos.ne' rfl) (by omega)
  · refine lowered.push_pages (own.trans (by omega)) created fun mem => ?_
    exact pos.ne' (listed.free _ mem).1
  · exact lowered

theorem deallocateLine_counts (h : PageHeap) (line : Nat) :
    (h.deallocateLine P k line).lineRefCount = h.lineRefCount ∧
      (h.deallocateLine P k line).pageSizeClass = h.pageSizeClass ∧
      (h.deallocateLine P k line).pageRefCount = update h.pageRefCount (pageOfLine P k line)
        (h.pageRefCount (pageOfLine P k line) - 1) := by
  unfold PageHeap.deallocateLine
  dsimp only
  split_ifs <;> exact ⟨rfl, rfl, rfl⟩

/-- Freeing one object. -/
theorem Inv.derefLine (inv : h.Inv P k chunks (o ::ₘ objects)) :
    (h.derefLine P k o.line).Inv P k chunks objects := by
  have pos := inv.lineRefCount_pos (Multiset.mem_cons_self o objects)
  unfold PageHeap.derefLine
  dsimp only
  split_ifs with more <;> rw [Function.update_self] at more
  · -- Other objects begin in the line: only its own count changes.
    refine ⟨inv.toCounted.deref rfl rfl (fun p => ?_) fun p => Nat.le_refl _,
      inv.toListed.lower rfl rfl rfl fun p => Nat.le_refl _⟩
    rw [inv.page]
    refine usedLines_congr (fun l => ?_) p
    dsimp only
    by_cases eq : l = o.line
    · subst eq
      rw [Function.update_self]
      omega
    · rw [Function.update_of_ne eq]
  · rw [ne_eq, not_not] at more
    obtain ⟨lines, classes, pages⟩ := deallocateLine_counts (P := P) (k := k)
      { h with lineRefCount := update h.lineRefCount o.line (h.lineRefCount o.line - 1) } o.line
    refine ⟨inv.toCounted.deref lines classes (fun p => ?_) (fun p => ?_),
      inv.toListed.deallocateLine inv.toCounted pos.ne' _⟩
    · rw [pages, lines, inv.toCounted.page_deref pos.ne', more]
    · rw [pages]
      exact update_sub_one_le _ _ p

end Deref

/-! ## Handing out a page -/

section Take

variable {page : Nat}

/-- A counted heap does not look at the lists. -/
theorem Counted.of_lists (counted : h.Counted P k chunks objects) {h' : PageHeap}
    (lines : h'.lineRefCount = h.lineRefCount) (pages : h'.pageRefCount = h.pageRefCount)
    (classes : h'.pageSizeClass = h.pageSizeClass) : h'.Counted P k chunks objects := by
  refine ⟨counted.nodup, counted.kind, ?_, ?_, ?_, ?_⟩
  · simpa only [Placed, classes] using counted.placed
  · simpa only [lines] using counted.line
  · simpa only [lines, pages] using counted.page
  · simpa only [pages] using counted.created

theorem setPagesWithFreeLines_self (h : PageHeap) (c : SizeClass) (list : List Nat) :
    (h.setPagesWithFreeLines c list).pagesWithFreeLines c = list :=
  Function.update_self ..

/-- Entries may be dropped from a list of pages with free lines. -/
theorem Inv.setPagesWithFreeLines (inv : h.Inv P k chunks objects) {list : List Nat}
    (sub : list.Sublist (h.pagesWithFreeLines c)) :
    (h.setPagesWithFreeLines c list).Inv P k chunks objects := by
  have sublist : ∀ c', (update h.pagesWithFreeLines c list c').Sublist
      (h.pagesWithFreeLines c') := by
    intro c'
    rw [Function.update_apply]
    split_ifs with eq
    · exact eq ▸ sub
    · exact List.Sublist.refl _
  refine ⟨inv.toCounted.of_lists rfl rfl rfl, inv.free_nodup, inv.free, ?_, ?_, ?_⟩
  · exact fun c' => (inv.listed_nodup c').sublist (sublist c')
  · exact fun c' p hp => inv.listed_kind c' p ((sublist c').subset hp)
  · exact fun c' p hp => inv.listed c' p ((sublist c').subset hp)

/-- The free pages may be dropped or moved around. -/
theorem Inv.of_freePages (inv : h.Inv P k chunks objects) {h' : PageHeap}
    (lines : h'.lineRefCount = h.lineRefCount) (pages : h'.pageRefCount = h.pageRefCount)
    (classes : h'.pageSizeClass = h.pageSizeClass)
    (lists : h'.pagesWithFreeLines = h.pagesWithFreeLines)
    (free : h'.freePages.Subperm h.freePages) : h'.Inv P k chunks objects := by
  refine ⟨inv.toCounted.of_lists lines pages classes, ?_, ?_, ?_, ?_, ?_⟩
  · obtain ⟨l, perm, sub⟩ := free
    exact perm.nodup_iff.mp (inv.free_nodup.sublist sub)
  · simpa only [pages] using fun p hp => inv.free p (free.subset hp)
  · simpa only [lists] using inv.listed_nodup
  · simpa only [lists] using inv.listed_kind
  · simpa only [lists, pages, classes] using inv.listed

/-- A page in no use gets a class. -/
theorem Inv.setSizeClass (inv : h.Inv P k chunks objects) (unused : h.pageRefCount page = 0) :
    (h.setSizeClass page c).Inv P k chunks objects := by
  have same : ∀ p, h.pageRefCount p ≠ 0 → update h.pageSizeClass page c p = h.pageSizeClass p :=
    fun p used => Function.update_of_ne (fun eq : p = page => used (eq ▸ unused)) _ _
  refine ⟨⟨inv.nodup, inv.kind, ?_, inv.line, inv.page, inv.created⟩, inv.free_nodup, inv.free,
    inv.listed_nodup, inv.listed_kind, ?_⟩
  · intro o ho
    obtain ⟨p, n, cls, address, fits⟩ := inv.placed o ho
    refine ⟨p, n, ?_, address, fits⟩
    have used := inv.toCounted.pageRefCount_pos (inv.lineRefCount_pos ho).ne'
    rw [← inv.kind o ho, Placed.page_eq address fits] at used
    exact (same p used.ne').trans cls
  · intro c' p hp used cls
    exact inv.listed c' p hp used ((same p used).symm.trans cls)

/-- What the loop over the listed pages finds. -/
theorem takePageWithFreeLines_some {list rest : List Nat}
    (eq : h.takePageWithFreeLines c list = some (page, rest)) :
    (page :: rest).Sublist list ∧ h.pageRefCount page ≠ 0 ∧ h.pageSizeClass page = c := by
  induction list with
  | nil => simp [takePageWithFreeLines] at eq
  | cons p list ih =>
    rw [takePageWithFreeLines] at eq
    split_ifs at eq with stale
    · obtain ⟨sub, used⟩ := ih eq
      exact ⟨sub.cons p, used⟩
    · obtain ⟨rfl, rfl⟩ := Prod.mk.inj (Option.some.inj eq)
      rw [not_or, not_not] at stale
      exact ⟨List.Sublist.refl _, stale⟩

/-- A line of the page is free. -/
def HasFreeLine (P : Platform) (c : SizeClass) (h : PageHeap) (page : Nat) : Prop :=
  ∃ i < refillEnd P c, h.lineRefCount (page * lineCount P c.kind + i) = 0

theorem Inv.hasFreeLine (inv : h.Inv P c.kind chunks objects)
    (usable : refillEnd P c = lineCount P c.kind)
    (lt : h.pageRefCount page < lineCount P c.kind) : h.HasFreeLine P c page := by
  by_contra none
  simp only [HasFreeLine, not_exists, not_and, usable] at none
  have all : usedLines P c.kind h.lineRefCount page = lineCount P c.kind := by
    rw [usedLines, Finset.filter_true_of_mem fun i hi => none i (Finset.mem_range.mp hi),
      Finset.card_range]
  rw [inv.page, all] at lt
  omega

/-- Every line of a page that is in no use is free. -/
theorem Inv.hasFreeLine_of_unused (inv : h.Inv P c.kind chunks objects)
    (unused : h.pageRefCount page = 0) : h.HasFreeLine P c page := by
  have two := two_le_lineCount P c.kind
  have le := lineCount_le_refillEnd P c
  refine ⟨0, by omega, ?_⟩
  by_contra used
  have := inv.toCounted.pageRefCount_pos used
  rw [pageOfLine_add (by omega)] at this
  omega

end Take

end PageHeap

end Odyssey.Bmalloc
