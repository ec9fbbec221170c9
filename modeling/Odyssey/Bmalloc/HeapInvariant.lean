import Mathlib.Algebra.BigOperators.Group.Finset.Basic
import Odyssey.Bmalloc.PageHeapInvariant
import Odyssey.Bmalloc.ThreadCache

/-!
# Refills and frees keep the heap's invariant

`Heap.Inv` is the invariant of both kinds of pages. A refill adds the objects of the ranges it
pushes, of which there is at least one and at most `bumpRangeCacheCapacity`; a freed object is
taken out again.
-/

namespace Odyssey.Bmalloc

open Function (update)

variable {P : Platform} {k : Kind} {c : SizeClass}

namespace Heap

variable {h : Heap} {objects : Multiset Object}

/-- The invariant of the heap when `objects` are the objects not yet freed. -/
def Inv (P : Platform) (h : Heap) (objects : Multiset Object) : Prop :=
  ∀ k, (h.pageHeap k).Inv P k h.chunks (objects.filter (·.kind = k))

theorem inv_empty : Heap.empty.Inv P 0 := fun _ => PageHeap.inv_empty

@[simp] theorem modify_pageHeap (h : Heap) (k : Kind) (f : PageHeap → PageHeap) :
    (h.modify k f).pageHeap k = f (h.pageHeap k) :=
  Function.update_self ..

theorem modify_pageHeap_of_ne (h : Heap) {k k' : Kind} (ne : k' ≠ k) (f : PageHeap → PageHeap) :
    (h.modify k f).pageHeap k' = h.pageHeap k' :=
  Function.update_of_ne ne _ _

@[simp] theorem modify_chunks (h : Heap) (k : Kind) (f : PageHeap → PageHeap) :
    (h.modify k f).chunks = h.chunks := rfl

variable {f : PageHeap → PageHeap}

/-- A change of one kind leaves the other. -/
theorem Inv.modify (inv : h.Inv P objects) {objects' : Multiset Object}
    (own : (f (h.pageHeap k)).Inv P k h.chunks (objects'.filter (·.kind = k)))
    (others : ∀ k' ≠ k, objects'.filter (·.kind = k') = objects.filter (·.kind = k')) :
    (h.modify k f).Inv P objects' := by
  intro k'
  by_cases eq : k' = k
  · subst eq
    rwa [modify_pageHeap]
  · rw [modify_pageHeap_of_ne h eq, others k' eq]
    exact inv k'

/-- The same, for a change that neither adds nor frees objects. -/
theorem Inv.modify_same (inv : h.Inv P objects)
    (own : (f (h.pageHeap k)).Inv P k h.chunks (objects.filter (·.kind = k))) :
    (h.modify k f).Inv P objects :=
  inv.modify own fun _ _ => rfl

theorem filter_kind_ranges_self (ranges : List BumpRange) :
    (PageHeap.rangesObjects c ranges).filter (·.kind = c.kind) =
      PageHeap.rangesObjects c ranges := by
  rw [Multiset.filter_eq_self]
  intro o ho
  obtain ⟨r, -, mem⟩ := List.mem_flatMap.mp (Multiset.mem_coe.mp ho)
  rw [Object.kind, PageHeap.sizeClass_of_mem_objects mem]

theorem filter_kind_ranges_of_ne (ranges : List BumpRange) {k : Kind} (ne : k ≠ c.kind) :
    (PageHeap.rangesObjects c ranges).filter (·.kind = k) = 0 := by
  rw [← filter_kind_ranges_self, Multiset.filter_filter, Multiset.filter_eq_nil]
  rintro o - ⟨rfl, eq⟩
  exact ne eq

/-! ## Growing -/

theorem chunkPages_spec {chunk page : Nat} (mem : page ∈ chunkPages P k chunk) :
    chunk * chunkPageCount P ≤ page ∧ page < (chunk + 1) * chunkPageCount P := by
  obtain ⟨i, hi, rfl⟩ := List.mem_map.mp mem
  rw [List.mem_range'_1] at hi
  rw [Nat.succ_mul]
  omega

theorem nodup_chunkPages (chunk : Nat) : (chunkPages P k chunk).Nodup :=
  (List.nodup_range' ..).map fun _ _ eq => Nat.add_left_cancel eq

theorem chunkPages_ne_nil (chunk : Nat) : chunkPages P k chunk ≠ [] := by
  have : firstPage P k < chunkPageCount P := by cases P <;> cases k <;> decide
  simp [chunkPages]
  omega

theorem Inv.grow (inv : h.Inv P objects) : (h.grow P).Inv P objects := by
  intro k
  have inv := inv k
  have more : h.chunks * chunkPageCount P ≤ (h.chunks + 1) * chunkPageCount P :=
    Nat.mul_le_mul_right _ (Nat.le_succ _)
  have fresh : ∀ p ∈ chunkPages P k h.chunks, (h.pageHeap k).pageRefCount p = 0 := by
    intro p hp
    by_contra used
    exact absurd (inv.created p used) (Nat.not_lt.mpr (chunkPages_spec hp).1)
  have perm : ((h.grow P).pageHeap k).freePages.Perm
      (chunkPages P k h.chunks ++ (h.pageHeap k).freePages) := by
    change ((h.pageHeap k).pages ++ (((chunkPages P k h.chunks).reverse ++
      (h.pageHeap k).vmPages) ++ (h.pageHeap k).scavenging)).Perm _
    rw [List.append_assoc]
    refine (List.perm_append_comm_assoc _ _ _).trans ?_
    exact (List.reverse_perm _).append_right _
  refine ⟨⟨inv.nodup, inv.kind, inv.placed, inv.line, inv.page, ?_⟩, ?_, ?_, inv.listed_nodup, ?_,
    inv.listed⟩
  · exact fun p used => (inv.created p used).trans_le more
  · rw [perm.nodup_iff, List.nodup_append]
    refine ⟨nodup_chunkPages _, inv.free_nodup, ?_⟩
    rintro p hp q hq rfl
    exact absurd (inv.free p hq).2 (Nat.not_lt.mpr (chunkPages_spec hp).1)
  · intro p hp
    rcases List.mem_append.mp (perm.mem_iff.mp hp) with new | old
    · exact ⟨fresh p new, (chunkPages_spec new).2⟩
    · exact ⟨(inv.free p old).1, (inv.free p old).2.trans_le more⟩
  · intro c p hp
    obtain ⟨kind, usable, created⟩ := inv.listed_kind c p hp
    exact ⟨kind, usable, created.trans_le more⟩

theorem Inv.growIfNeeded (inv : h.Inv P objects) :
    (h.growIfNeeded P k).Inv P objects ∧ ((h.growIfNeeded P k).pageHeap k).vmPages ≠ [] ∧
      (h.growIfNeeded P k).pageHeap k =
        { h.pageHeap k with vmPages := ((h.growIfNeeded P k).pageHeap k).vmPages } := by
  unfold Heap.growIfNeeded
  split_ifs with none
  · refine ⟨inv.grow, ?_, rfl⟩
    simp [Heap.grow, chunkPages_ne_nil]
  · exact ⟨inv, none, rfl⟩

/-! ## Refills -/

/-- A page taken out of the free pages. -/
theorem free_of_perm {h h' : PageHeap} {chunks page : Nat} (inv : h.Inv P k chunks objects)
    (perm : h.freePages.Perm (page :: h'.freePages)) :
    page ∉ h'.freePages ∧ h.pageRefCount page = 0 ∧ page < chunks * chunkPageCount P :=
  ⟨(List.nodup_cons.mp (perm.nodup_iff.mp inv.free_nodup)).1,
    inv.free page (perm.mem_iff.mpr List.mem_cons_self)⟩

theorem Inv.takeFreePage (inv : h.Inv P objects) (k : Kind) :
    ∃ page h', h.takeFreePage P k = some (page, h') ∧ h'.Inv P objects ∧
      page ∉ (h'.pageHeap k).freePages ∧ (h'.pageHeap k).pageRefCount page = 0 ∧
      page < h'.chunks * chunkPageCount P ∧
      (h'.pageHeap k).pagesWithFreeLines = (h.pageHeap k).pagesWithFreeLines := by
  unfold Heap.takeFreePage
  cases pages : (h.pageHeap k).pages with
  | cons page rest =>
    have perm : (h.pageHeap k).freePages.Perm
        (page :: { h.pageHeap k with pages := rest }.freePages) := by
      simp [PageHeap.freePages, pages]
    obtain ⟨not_free, unused, created⟩ := free_of_perm (inv k) perm
    refine ⟨page, _, rfl, inv.modify_same ?_, ?_⟩
    · refine (inv k).of_freePages rfl rfl rfl rfl ?_
      exact (List.sublist_cons_self _ _).subperm.trans perm.symm.subperm
    · simp only [modify_pageHeap, modify_chunks]
      exact ⟨not_free, unused, created, trivial⟩
  | nil =>
    obtain ⟨inv', ne, same⟩ := inv.growIfNeeded (k := k)
    unfold Heap.allocateVMPage
    dsimp only
    cases vmPages : ((h.growIfNeeded P k).pageHeap k).vmPages with
    | nil => exact absurd vmPages ne
    | cons page rest =>
      have perm : ((h.growIfNeeded P k).pageHeap k).freePages.Perm
          (page :: { (h.growIfNeeded P k).pageHeap k with vmPages := rest }.freePages) := by
        simp only [PageHeap.freePages, vmPages, List.cons_append]
        exact List.perm_middle
      obtain ⟨not_free, unused, created⟩ := free_of_perm (inv' k) perm
      refine ⟨page, _, rfl, inv'.modify_same ?_, ?_⟩
      · refine (inv' k).of_freePages rfl rfl rfl rfl ?_
        exact (List.sublist_cons_self _ _).subperm.trans perm.symm.subperm
      · simp only [modify_pageHeap, modify_chunks]
        exact ⟨not_free, unused, created, by rw [same]⟩

/-- `allocateSmallPage` returns a page of the class with a free line. -/
theorem Inv.allocatePage (inv : h.Inv P objects) (c : SizeClass) :
    ∃ page h', h.allocatePage P c = some (page, h') ∧ h'.Inv P objects ∧
      (h'.pageHeap c.kind).Taken P h'.chunks c page ∧
      (h'.pageHeap c.kind).HasFreeLine P c page := by
  unfold Heap.allocatePage
  dsimp only
  cases take : (h.pageHeap c.kind).takePageWithFreeLines c
      ((h.pageHeap c.kind).pagesWithFreeLines c) with
  | some found =>
    -- A listed page in use for the class has a free line, and it is listed only once.
    obtain ⟨page, rest⟩ := found
    obtain ⟨sub, used, cls⟩ := PageHeap.takePageWithFreeLines_some take
    have mem := sub.subset List.mem_cons_self
    obtain ⟨-, usable, created⟩ := (inv c.kind).listed_kind c page mem
    have inv' : ((h.pageHeap c.kind).setPagesWithFreeLines c rest).Inv P c.kind h.chunks _ :=
      (inv c.kind).setPagesWithFreeLines ((List.sublist_cons_self _ _).trans sub)
    refine ⟨page, _, rfl, inv.modify_same inv', ?_, ?_⟩
    · rw [modify_pageHeap]
      refine ⟨cls, fun free => used ((inv c.kind).free page free).1, ?_, created⟩
      rw [PageHeap.setPagesWithFreeLines_self]
      exact (List.nodup_cons.mp (((inv c.kind).listed_nodup c).sublist sub)).1
    · rw [modify_pageHeap]
      exact inv'.hasFreeLine usable ((inv c.kind).listed c page mem used cls)
  | none =>
    -- The list of the class has run empty, so the page is not in it.
    have inv' := inv.modify_same (k := c.kind) (f := (·.setPagesWithFreeLines c []))
      ((inv c.kind).setPagesWithFreeLines (List.nil_sublist _))
    obtain ⟨page, h', eq, inv'', not_free, unused, created, lists⟩ := inv'.takeFreePage c.kind
    have own : ((h'.pageHeap c.kind).setSizeClass page c).Inv P c.kind h'.chunks _ :=
      (inv'' c.kind).setSizeClass unused
    refine ⟨page, _, by rw [eq]; rfl, inv''.modify_same own, ?_, ?_⟩
    · rw [modify_pageHeap]
      refine ⟨Function.update_self .., not_free, ?_, created⟩
      change page ∉ (h'.pageHeap c.kind).pagesWithFreeLines c
      rw [lists, modify_pageHeap, PageHeap.setPagesWithFreeLines_self]
      exact List.not_mem_nil
    · rw [modify_pageHeap]
      exact own.hasFreeLine_of_unused unused

/-- A refill pushes at least one range and no more than the cache can hold, none of them empty, and
their objects are new. -/
theorem Inv.refillBumpRangeCache (inv : h.Inv P objects) (c : SizeClass) :
    ∃ ranges h', h.refillBumpRangeCache P c = some (ranges, h') ∧
      h'.Inv P (objects + PageHeap.rangesObjects c ranges) ∧
      1 ≤ ranges.length ∧ ranges.length ≤ bumpRangeCacheCapacity P ∧
      ∀ range ∈ ranges, 0 < range.objectCount := by
  obtain ⟨page, h', eq, inv', taken, i, hi, unused⟩ := inv.allocatePage c
  obtain ⟨new, own, objects_eq⟩ := (inv' c.kind).refillLines (PageHeap.refillEnd P c) taken
    (Nat.zero_add _) (r := none) (by simp)
  have length := PageHeap.length_refillLines_le (h := h'.pageHeap c.kind) (P := P) (c := c) page
    (PageHeap.refillEnd P c) 0 none
  rw [Option.toList_none, PageHeap.rangesObjects_nil, zero_add] at objects_eq
  subst objects_eq
  refine ⟨_, _, by rw [Heap.refillBumpRangeCache, eq]; rfl, inv'.modify ?_ ?_, ?_, ?_, ?_⟩
  · rwa [Multiset.filter_add, filter_kind_ranges_self]
  · intro k ne
    rw [Multiset.filter_add, filter_kind_ranges_of_ne _ ne, add_zero]
  · refine List.length_pos_iff.mpr (PageHeap.refillLines_ne_nil _ 0 i (by omega) ?_)
    rwa [Nat.zero_add]
  · refine length.trans ?_
    have le := PageHeap.refillEnd_le P c
    have capacity : (lineCount P c.kind + 1) / 2 ≤ bumpRangeCacheCapacity P := by
      cases P <;> cases c.kind <;> decide
    rw [Option.toList_none, List.length_nil]
    omega
  · exact PageHeap.objectCount_pos_of_mem_refillLines _ (Nat.zero_add _) (by simp)

/-! ## Frees -/

theorem Inv.derefObject {o : Object} (inv : h.Inv P (o ::ₘ objects)) :
    (h.derefObject P o).Inv P objects := by
  refine inv.modify ?_ fun k ne => ?_
  · have own := inv o.kind
    rw [Multiset.filter_cons_of_pos (p := fun x : Object => x.kind = o.kind) _ rfl] at own
    exact own.derefLine
  · rw [Multiset.filter_cons_of_neg (p := fun x : Object => x.kind = k) _ (Ne.symm ne)]

/-- Processing a log frees its objects. -/
theorem Inv.foldl_derefObject (log : List Object) (inv : h.Inv P (objects + log)) :
    (log.foldl (Heap.derefObject P) h).Inv P objects := by
  induction log generalizing h with
  | nil => simpa using inv
  | cons o log ih =>
    refine ih (Inv.derefObject (o := o) ?_)
    rwa [← Multiset.cons_coe, Multiset.add_cons] at inv

/-! ## The scavenger of pages -/

/-- The scavenger moves a page among the free ones and leaves the rest. -/
structure Moves (h h' : PageHeap) : Prop where
  lineRefCount : h'.lineRefCount = h.lineRefCount
  pageRefCount : h'.pageRefCount = h.pageRefCount
  pageSizeClass : h'.pageSizeClass = h.pageSizeClass
  pagesWithFreeLines : h'.pagesWithFreeLines = h.pagesWithFreeLines
  freePages : h'.freePages.Perm h.freePages

theorem moves_beginScavengePage (h : PageHeap) : Moves h h.beginScavengePage := by
  unfold PageHeap.beginScavengePage
  cases pages : h.pages with
  | nil => exact ⟨rfl, rfl, rfl, rfl, .refl _⟩
  | cons page rest =>
    refine ⟨rfl, rfl, rfl, rfl, ?_⟩
    simp only [PageHeap.freePages, pages]
    rw [← List.append_assoc, ← List.append_assoc]
    exact List.perm_middle

theorem moves_endScavengePage (page : Nat) (h : PageHeap) : Moves h (h.endScavengePage page) := by
  unfold PageHeap.endScavengePage
  split_ifs with mem
  · refine ⟨rfl, rfl, rfl, rfl, List.Perm.append_left _ ?_⟩
    exact List.perm_middle.symm.trans ((List.perm_cons_erase mem).symm.append_left _)
  · exact ⟨rfl, rfl, rfl, rfl, .refl _⟩

theorem Inv.scavengePage (moves : ∀ h, Moves h (f h)) (inv : h.Inv P objects) :
    (h.modify k f).Inv P objects :=
  have moves := moves (h.pageHeap k)
  inv.modify_same ((inv k).of_freePages moves.lineRefCount moves.pageRefCount moves.pageSizeClass
    moves.pagesWithFreeLines moves.freePages.subperm)

end Heap

end Odyssey.Bmalloc
