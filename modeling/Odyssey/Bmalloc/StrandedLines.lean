import Odyssey.Bmalloc.ThreadCacheCorrect

/-!
# Pages with free lines

`deallocateSmallLine` enlists a page with free lines when its count drops from `lineCount`. A page
of a class whose last line can not fit an object never has that count: its last line is never
referenced, so the page is never enlisted, and its free lines are out of reach until the whole page
is free. For the other classes `PageHeap.Enlisted` holds after every history: a page in use with a
free line is in the list of its class, and a page that is not in use is among the free pages.

While a refill is under way, the page it took out of the lists is an exception; `Enlisted` names it.
-/

namespace Odyssey.Bmalloc

open Function (update)

variable {P : Platform} {k : Kind} {c : SizeClass}

/-- The page lies in one of the chunks that `VMHeap::grow` has created. -/
def Created (P : Platform) (k : Kind) (chunks page : Nat) : Prop :=
  ∃ chunk < chunks, page ∈ chunkPages P k chunk

theorem Created.mono {chunks chunks' page : Nat} (created : Created P k chunks page)
    (le : chunks ≤ chunks') : Created P k chunks' page := by
  obtain ⟨chunk, lt, mem⟩ := created
  exact ⟨chunk, lt.trans_le le, mem⟩

namespace PageHeap

variable {h h' : PageHeap} {chunks page : Nat} {taken : List Nat} {objects : Multiset Object}

/-- Pages with free lines are listed and pages without objects are free, the pages `taken` apart. -/
structure Enlisted (P : Platform) (k : Kind) (chunks : Nat) (taken : List Nat) (h : PageHeap) :
    Prop where
  listed : ∀ p ∉ taken, h.pageRefCount p ≠ 0 → refillEnd P (h.pageSizeClass p) = lineCount P k →
    h.pageRefCount p < lineCount P k → p ∈ h.pagesWithFreeLines (h.pageSizeClass p)
  free : ∀ p ∉ taken, Created P k chunks p → h.pageRefCount p = 0 → p ∈ h.freePages
  created : ∀ p, h.pageRefCount p ≠ 0 ∨ p ∈ h.freePages ∨ p ∈ taken → Created P k chunks p

theorem enlisted_empty : PageHeap.empty.Enlisted P k 0 [] where
  listed := by simp [empty]
  free := by
    rintro p - ⟨chunk, lt, -⟩
    omega
  created := by simp [empty, freePages]

/-! ## A refill uses up the page it took -/

/-- What taking lines of `page` leaves as it was. -/
structure Refilled (page : Nat) (h h' : PageHeap) : Prop where
  lists : h'.pagesWithFreeLines = h.pagesWithFreeLines
  free : h'.freePages = h.freePages
  classes : h'.pageSizeClass = h.pageSizeClass
  others : ∀ p ≠ page, h'.pageRefCount p = h.pageRefCount p
  lines : ∀ l, h.lineRefCount l ≠ 0 → h'.lineRefCount l ≠ 0

theorem Refilled.refl (page : Nat) (h : PageHeap) : Refilled page h h :=
  ⟨rfl, rfl, rfl, fun _ _ => rfl, fun _ used => used⟩

theorem Refilled.trans {h'' : PageHeap} (first : Refilled page h h')
    (second : Refilled page h' h'') : Refilled page h h'' where
  lists := second.lists.trans first.lists
  free := second.free.trans first.free
  classes := second.classes.trans first.classes
  others := fun p ne => (second.others p ne).trans (first.others p ne)
  lines := fun l used => second.lines l (first.lines l used)

theorem refilled_ref (h : PageHeap) (page line : Nat) {n : Nat} (pos : 0 < n) :
    Refilled page h (h.ref page line n) := by
  refine ⟨rfl, rfl, rfl, fun p ne => ref_pageRefCount_of_ne ne, fun l used => ?_⟩
  change update h.lineRefCount line n l ≠ 0
  rw [Function.update_apply]
  split_ifs
  · exact pos.ne'
  · exact used

/-- The loops of a refill leave no line free that they pass. -/
theorem refillLines_refilled {page : Nat} (lines : Nat) {lineNumber : Nat} {r : Option BumpRange}
    (last : lineNumber + lines ≤ refillEnd P c) :
    Refilled page h (h.refillLines P c page lines lineNumber r).2 ∧
      ∀ i, lineNumber ≤ i → i < lineNumber + lines →
        (h.refillLines P c page lines lineNumber r).2.lineRefCount
          (page * lineCount P c.kind + i) ≠ 0 := by
  induction lines generalizing h lineNumber r with
  | zero =>
    refine ⟨?_, fun i le lt => by omega⟩
    cases r <;> exact Refilled.refl page h
  | succ lines ih =>
    have pos := objectCount_pos_of_lt_refillEnd (show lineNumber < refillEnd P c by omega)
    -- Whatever range is open afterwards, the rest of the loop keeps this line in use.
    have rest : ∀ {g : PageHeap} (r : Option BumpRange), Refilled page h g →
        g.lineRefCount (page * lineCount P c.kind + lineNumber) ≠ 0 →
        Refilled page h (g.refillLines P c page lines (lineNumber + 1) r).2 ∧
          ∀ i, lineNumber ≤ i → i < lineNumber + (lines + 1) →
            (g.refillLines P c page lines (lineNumber + 1) r).2.lineRefCount
              (page * lineCount P c.kind + i) ≠ 0 := by
      intro g r refilled used
      obtain ⟨refilled', all⟩ := @ih g (lineNumber + 1) r (by omega)
      refine ⟨refilled.trans refilled', fun i le lt => ?_⟩
      rcases Nat.eq_or_lt_of_le le with rfl | gt
      · exact refilled'.lines _ used
      · exact all i gt (by omega)
    have taken : (h.ref page (page * lineCount P c.kind + lineNumber)
        (lineMetadata P c lineNumber).objectCount).lineRefCount
          (page * lineCount P c.kind + lineNumber) ≠ 0 := by
      change update h.lineRefCount _ _ _ ≠ 0
      rw [Function.update_self]
      exact pos.ne'
    cases r with
    | none =>
      rw [PageHeap.refillLines]
      split_ifs with used
      · exact rest none (Refilled.refl page h) used
      · exact rest _ (refilled_ref h page _ pos) taken
    | some range =>
      rw [PageHeap.refillLines]
      dsimp only
      split_ifs with used
      · exact rest none (Refilled.refl page h) used
      · exact rest _ (refilled_ref h page _ pos) taken

theorem usedLines_of_all {f : Nat → Nat} (all : ∀ i < lineCount P k,
    f (page * lineCount P k + i) ≠ 0) : usedLines P k f page = lineCount P k := by
  rw [usedLines, Finset.filter_true_of_mem fun i hi => all i (Finset.mem_range.mp hi),
    Finset.card_range]

/-- After the refill the page is in use, and full if its class can use all its lines. -/
theorem Enlisted.refill (enlisted : h.Enlisted P c.kind chunks [page])
    (refilled : Refilled page h h') (cls : h.pageSizeClass page = c)
    (counted : h'.Counted P c.kind chunks objects)
    (all : ∀ i < refillEnd P c, h'.lineRefCount (page * lineCount P c.kind + i) ≠ 0) :
    h'.Enlisted P c.kind chunks [] := by
  have two := two_le_lineCount P c.kind
  have used : h'.pageRefCount page ≠ 0 := by
    have pos := counted.pageRefCount_pos (all 0 (by have := lineCount_le_refillEnd P c; omega))
    rw [pageOfLine_add (by omega)] at pos
    exact pos.ne'
  refine ⟨?_, ?_, ?_⟩
  · rintro p - used_p usable lt
    rw [refilled.classes] at usable ⊢
    by_cases eq : p = page
    · subst eq
      rw [cls] at usable
      rw [counted.page, usedLines_of_all (usable ▸ all)] at lt
      omega
    · rw [refilled.others p eq] at used_p lt
      rw [refilled.lists]
      exact enlisted.listed p (by simpa using eq) used_p usable lt
  · rintro p - created unused
    have ne : p ≠ page := fun eq => used (eq ▸ unused)
    rw [refilled.others p ne] at unused
    rw [refilled.free]
    exact enlisted.free p (by simpa using ne) created unused
  · rintro p (used_p | free | mem)
    · by_cases eq : p = page
      · exact enlisted.created p (.inr (.inr (by simpa using eq)))
      · exact enlisted.created p (.inl (refilled.others p eq ▸ used_p))
    · exact enlisted.created p (.inr (.inl (refilled.free ▸ free)))
    · exact absurd mem List.not_mem_nil

/-! ## Frees -/

/-- Counts of lines do not matter. -/
theorem Enlisted.of_counts (enlisted : h.Enlisted P k chunks taken)
    (pages : h'.pageRefCount = h.pageRefCount) (classes : h'.pageSizeClass = h.pageSizeClass)
    (lists : h'.pagesWithFreeLines = h.pagesWithFreeLines)
    (free : ∀ p, p ∈ h'.freePages ↔ p ∈ h.freePages) : h'.Enlisted P k chunks taken := by
  refine ⟨?_, ?_, ?_⟩
  · simpa only [pages, classes, lists] using enlisted.listed
  · simpa only [pages, free] using enlisted.free
  · simpa only [pages, free] using enlisted.created

/-- The last object that begins in a line is gone: the page was full and is enlisted, it has no
object left and is free, or it was listed before. -/
theorem Enlisted.deallocateLine (enlisted : h.Enlisted P k chunks []) {line : Nat}
    (used : h.pageRefCount (pageOfLine P k line) ≠ 0) :
    (h.deallocateLine P k line).Enlisted P k chunks [] := by
  have two := two_le_lineCount P k
  obtain ⟨page, page_eq⟩ : ∃ page, page = pageOfLine P k line := ⟨_, rfl⟩
  rw [← page_eq] at used
  have own : update h.pageRefCount page (h.pageRefCount page - 1) page =
    h.pageRefCount page - 1 := Function.update_self ..
  have other : ∀ p, p ≠ page →
      update h.pageRefCount page (h.pageRefCount page - 1) p = h.pageRefCount p :=
    fun p ne => Function.update_of_ne ne ..
  have created : ∀ p, update h.pageRefCount page (h.pageRefCount page - 1) p ≠ 0 ∨
      p ∈ h.freePages → Created P k chunks p := by
    rintro p (used_p | free)
    · refine enlisted.created p (.inl fun zero => used_p ?_)
      have := update_sub_one_le h.pageRefCount page p
      omega
    · exact enlisted.created p (.inr (.inl free))
  -- Nothing changes for the other pages.
  have others : ∀ p, p ≠ page → update h.pageRefCount page (h.pageRefCount page - 1) p ≠ 0 →
      refillEnd P (h.pageSizeClass p) = lineCount P k →
      update h.pageRefCount page (h.pageRefCount page - 1) p < lineCount P k →
      p ∈ h.pagesWithFreeLines (h.pageSizeClass p) := by
    intro p ne used_p usable lt
    rw [other p ne] at used_p lt
    exact enlisted.listed p List.not_mem_nil used_p usable lt
  have others_free : ∀ p, p ≠ page → Created P k chunks p →
      update h.pageRefCount page (h.pageRefCount page - 1) p = 0 → p ∈ h.freePages := by
    intro p ne created_p unused
    rw [other p ne] at unused
    exact enlisted.free p List.not_mem_nil created_p unused
  unfold PageHeap.deallocateLine
  dsimp only
  rw [← page_eq]
  split_ifs with full one
  · refine ⟨?_, ?_, ?_⟩
    · rintro p - used_p usable lt
      change p ∈ update h.pagesWithFreeLines (h.pageSizeClass page) _ (h.pageSizeClass p)
      by_cases eq : p = page
      · subst eq
        rw [Function.update_self]
        exact List.mem_cons_self
      · have mem := others p eq used_p usable lt
        rw [Function.update_apply]
        split_ifs with cls
        · exact List.mem_cons_of_mem _ (cls ▸ mem)
        · exact mem
    · rintro p - created_p unused
      refine others_free p ?_ created_p unused
      rintro rfl
      exact absurd (own.symm.trans unused) (by omega)
    · exact fun p hp => created p (hp.imp_right fun hp => hp.resolve_right List.not_mem_nil)
  · refine ⟨?_, ?_, ?_⟩
    · rintro p - used_p usable lt
      refine others p ?_ used_p usable lt
      rintro rfl
      exact used_p (own.trans (by omega))
    · rintro p - created_p unused
      change p ∈ page :: h.freePages
      by_cases eq : p = page
      · exact eq ▸ List.mem_cons_self
      · exact List.mem_cons_of_mem _ (others_free p eq created_p unused)
    · rintro p (used_p | free | mem)
      · exact created p (.inl used_p)
      · rcases List.mem_cons.mp (show p ∈ page :: h.freePages from free) with rfl | free
        · exact enlisted.created _ (.inl used)
        · exact created p (.inr free)
      · exact absurd mem List.not_mem_nil
  · refine ⟨?_, ?_, ?_⟩
    · rintro p - used_p usable lt
      by_cases eq : p = page
      · subst eq
        have lt : h.pageRefCount p - 1 < lineCount P k := own ▸ lt
        exact enlisted.listed p List.not_mem_nil used usable (by omega)
      · exact others p eq used_p usable lt
    · rintro p - created_p unused
      refine others_free p ?_ created_p unused
      rintro rfl
      exact absurd (own.symm.trans unused) (by omega)
    · exact fun p hp => created p (hp.imp_right fun hp => hp.resolve_right List.not_mem_nil)

theorem Enlisted.derefLine (enlisted : h.Enlisted P k chunks [])
    (counted : h.Counted P k chunks objects) {o : Object} (ho : o ∈ objects) :
    (h.derefLine P k o.line).Enlisted P k chunks [] := by
  have lowered : { h with
      lineRefCount := update h.lineRefCount o.line (h.lineRefCount o.line - 1) }.Enlisted P k
        chunks [] := enlisted.of_counts rfl rfl rfl fun _ => Iff.rfl
  unfold PageHeap.derefLine
  dsimp only
  split_ifs
  · exact lowered
  · exact lowered.deallocateLine (counted.pageRefCount_pos (counted.lineRefCount_pos ho).ne').ne'

/-! ## Handing out a page -/

/-- The loop over the listed pages drops no page in use for the class but the one it returns. -/
theorem mem_of_takePageWithFreeLines_some {list rest : List Nat}
    (eq : h.takePageWithFreeLines c list = some (page, rest)) {p : Nat} (mem : p ∈ list)
    (used : h.pageRefCount p ≠ 0) (cls : h.pageSizeClass p = c) : p = page ∨ p ∈ rest := by
  induction list with
  | nil => exact absurd mem List.not_mem_nil
  | cons q list ih =>
    rw [takePageWithFreeLines] at eq
    split_ifs at eq with stale
    · rcases List.mem_cons.mp mem with rfl | mem
      · exact absurd stale (by simp [used, cls])
      · exact ih eq mem
    · obtain ⟨rfl, rfl⟩ := Prod.mk.inj (Option.some.inj eq)
      exact List.mem_cons.mp mem

theorem takePageWithFreeLines_ne_none {list : List Nat} {p : Nat} (mem : p ∈ list)
    (used : h.pageRefCount p ≠ 0) (cls : h.pageSizeClass p = c) :
    h.takePageWithFreeLines c list ≠ none := by
  induction list with
  | nil => exact absurd mem List.not_mem_nil
  | cons q list ih =>
    rw [takePageWithFreeLines]
    split_ifs with stale
    · rcases List.mem_cons.mp mem with rfl | mem
      · exact absurd stale (by simp [used, cls])
      · exact ih mem
    · simp

/-- The list of a class may lose the pages that are taken and those not in use for the class. -/
theorem Enlisted.setPagesWithFreeLines (enlisted : h.Enlisted P k chunks []) {list : List Nat}
    (keeps : ∀ p ∈ h.pagesWithFreeLines c, h.pageRefCount p ≠ 0 → h.pageSizeClass p = c →
      p ∉ taken → p ∈ list)
    (created : ∀ p ∈ taken, Created P k chunks p) :
    (h.setPagesWithFreeLines c list).Enlisted P k chunks taken := by
  refine ⟨?_, fun p _ => enlisted.free p List.not_mem_nil, ?_⟩
  · intro p not_taken used usable lt
    have mem := enlisted.listed p List.not_mem_nil used usable lt
    change p ∈ update h.pagesWithFreeLines c list (h.pageSizeClass p)
    rw [Function.update_apply]
    split_ifs with cls
    · exact keeps p (cls ▸ mem) used cls not_taken
    · exact mem
  · rintro p (used | free | mem)
    · exact enlisted.created p (.inl used)
    · exact enlisted.created p (.inr (.inl free))
    · exact created p mem

/-- A page is taken out of the free pages. -/
theorem Enlisted.takeFree (enlisted : h.Enlisted P k chunks [])
    (perm : h.freePages.Perm (page :: h'.freePages)) (pages : h'.pageRefCount = h.pageRefCount)
    (classes : h'.pageSizeClass = h.pageSizeClass)
    (lists : h'.pagesWithFreeLines = h.pagesWithFreeLines) : h'.Enlisted P k chunks [page] := by
  refine ⟨?_, ?_, ?_⟩
  · rw [pages, classes, lists]
    exact fun p _ => enlisted.listed p List.not_mem_nil
  · rw [pages]
    intro p ne created unused
    have free := perm.mem_iff.mp (enlisted.free p List.not_mem_nil created unused)
    exact (List.mem_cons.mp free).resolve_left (by simpa using ne)
  · rw [pages]
    rintro p (used | free | mem)
    · exact enlisted.created p (.inl used)
    · exact enlisted.created p (.inr (.inl (perm.mem_iff.mpr (List.mem_cons_of_mem _ free))))
    · obtain rfl := List.mem_singleton.mp mem
      exact enlisted.created p (.inr (.inl (perm.mem_iff.mpr List.mem_cons_self)))

/-- The class of the page that is taken may change. -/
theorem Enlisted.setSizeClass (enlisted : h.Enlisted P k chunks [page]) :
    (h.setSizeClass page c).Enlisted P k chunks [page] := by
  refine ⟨?_, enlisted.free, enlisted.created⟩
  intro p ne
  have same : update h.pageSizeClass page c p = h.pageSizeClass p :=
    Function.update_of_ne (by simpa using ne) ..
  change h.pageRefCount p ≠ 0 → refillEnd P (update h.pageSizeClass page c p) = _ → _ →
    p ∈ h.pagesWithFreeLines (update h.pageSizeClass page c p)
  rw [same]
  exact enlisted.listed p ne

end PageHeap

/-! ## Both kinds -/

namespace Heap

variable {h h' : Heap} {page : Nat} {taken : Kind → List Nat} {objects : Multiset Object}

def Enlisted (P : Platform) (taken : Kind → List Nat) (h : Heap) : Prop :=
  ∀ k, (h.pageHeap k).Enlisted P k h.chunks (taken k)

/-- No page is taken. -/
def untaken : Kind → List Nat := fun _ => []

theorem enlisted_empty : Heap.empty.Enlisted P untaken := fun _ => PageHeap.enlisted_empty

variable {f : PageHeap → PageHeap}

theorem Enlisted.modify (enlisted : h.Enlisted P taken) {list : List Nat}
    (own : (f (h.pageHeap k)).Enlisted P k h.chunks list) :
    (h.modify k f).Enlisted P (update taken k list) := by
  intro k'
  by_cases eq : k' = k
  · subst eq
    rwa [modify_pageHeap, Function.update_self]
  · rw [modify_pageHeap_of_ne h eq, Function.update_of_ne eq]
    exact enlisted k'

/-- A change that leaves no page of its kind taken. -/
theorem Enlisted.modify_untaken (enlisted : h.Enlisted P untaken)
    (own : (f (h.pageHeap k)).Enlisted P k h.chunks []) : (h.modify k f).Enlisted P untaken := by
  have modified := enlisted.modify own
  rwa [show update untaken k [] = untaken from Function.update_eq_self k untaken] at modified

/-- A new chunk is all free. -/
theorem Enlisted.grow (enlisted : h.Enlisted P untaken) :
    (h.grow P).Enlisted P untaken := by
  intro k
  have enlisted := enlisted k
  have mem : ∀ p, p ∈ ((h.grow P).pageHeap k).freePages ↔
      p ∈ chunkPages P k h.chunks ∨ p ∈ (h.pageHeap k).freePages := by
    intro p
    simp only [PageHeap.freePages, Heap.grow, List.mem_append, List.mem_reverse]
    tauto
  refine ⟨enlisted.listed, ?_, ?_⟩
  · rintro p not_taken ⟨chunk, lt, created⟩ unused
    rw [mem]
    rcases Nat.lt_or_eq_of_le (Nat.le_of_lt_succ lt) with old | rfl
    · exact .inr (enlisted.free p not_taken ⟨chunk, old, created⟩ unused)
    · exact .inl created
  · rintro p (used | free | none)
    · exact (enlisted.created p (.inl used)).mono (Nat.le_succ _)
    · rcases (mem p).mp free with new | old
      · exact ⟨h.chunks, Nat.lt_succ_self _, new⟩
      · exact (enlisted.created p (.inr (.inl old))).mono (Nat.le_succ _)
    · exact absurd none List.not_mem_nil

/-- The page that `takeFreePage` returns is the only one taken. -/
theorem Enlisted.takeFreePage (enlisted : h.Enlisted P untaken)
    (eq : h.takeFreePage P k = some (page, h')) :
    h'.Enlisted P (update untaken k [page]) := by
  unfold Heap.takeFreePage at eq
  cases pages : (h.pageHeap k).pages with
  | cons first rest =>
    simp only [pages] at eq
    obtain ⟨rfl, rfl⟩ := Prod.mk.inj (Option.some.inj eq)
    refine enlisted.modify ((enlisted k).takeFree ?_ rfl rfl rfl)
    simp [PageHeap.freePages, pages]
  | nil =>
    simp only [pages, Heap.allocateVMPage] at eq
    have grown : (h.growIfNeeded P k).Enlisted P untaken := by
      unfold Heap.growIfNeeded
      split_ifs
      · exact enlisted.grow
      · exact enlisted
    cases vmPages : ((h.growIfNeeded P k).pageHeap k).vmPages with
    | nil => simp [vmPages] at eq
    | cons first rest =>
      simp only [vmPages] at eq
      obtain ⟨rfl, rfl⟩ := Prod.mk.inj (Option.some.inj eq)
      refine grown.modify ((grown k).takeFree ?_ rfl rfl rfl)
      simp only [PageHeap.freePages, vmPages, List.cons_append]
      exact List.perm_middle

theorem Enlisted.allocatePage (enlisted : h.Enlisted P untaken)
    (eq : h.allocatePage P c = some (page, h')) :
    h'.Enlisted P (update untaken c.kind [page]) := by
  unfold Heap.allocatePage at eq
  dsimp only at eq
  cases take : (h.pageHeap c.kind).takePageWithFreeLines c
      ((h.pageHeap c.kind).pagesWithFreeLines c) with
  | some found =>
    obtain ⟨first, rest⟩ := found
    simp only [take] at eq
    obtain ⟨rfl, rfl⟩ := Prod.mk.inj (Option.some.inj eq)
    obtain ⟨-, used, -⟩ := PageHeap.takePageWithFreeLines_some take
    refine enlisted.modify ((enlisted c.kind).setPagesWithFreeLines ?_ ?_)
    · intro p mem used cls ne
      exact (PageHeap.mem_of_takePageWithFreeLines_some take mem used cls).resolve_left
        (by simpa using ne)
    · intro p mem
      obtain rfl := List.mem_singleton.mp mem
      exact (enlisted c.kind).created p (.inl used)
  | none =>
    simp only [take] at eq
    obtain ⟨⟨first, g⟩, free, pair⟩ := Option.map_eq_some_iff.mp eq
    obtain ⟨rfl, rfl⟩ := Prod.mk.inj pair
    have emptied : (h.modify c.kind (·.setPagesWithFreeLines c [])).Enlisted P untaken := by
      refine enlisted.modify_untaken ((enlisted c.kind).setPagesWithFreeLines ?_ (by simp))
      intro p mem used cls _
      exact absurd take (PageHeap.takePageWithFreeLines_ne_none mem used cls)
    have held := emptied.takeFreePage free
    have own := held c.kind
    rw [Function.update_self] at own
    have set := held.modify (f := (·.setSizeClass first c)) own.setSizeClass
    rwa [Function.update_idem] at set

theorem Enlisted.refillBumpRangeCache (enlisted : h.Enlisted P untaken) (inv : h.Inv P objects)
    {ranges : List BumpRange} (eq : h.refillBumpRangeCache P c = some (ranges, h')) :
    h'.Enlisted P untaken := by
  obtain ⟨page, g, allocate, inv', taken, -⟩ := inv.allocatePage c
  rw [Heap.refillBumpRangeCache, allocate] at eq
  obtain ⟨-, rfl⟩ := Prod.mk.inj (Option.some.inj eq)
  have held := enlisted.allocatePage allocate
  have own := held c.kind
  rw [Function.update_self] at own
  obtain ⟨new, refilled_inv, -⟩ := (inv' c.kind).refillLines (PageHeap.refillEnd P c) taken
    (Nat.zero_add _) (r := none) (by simp)
  obtain ⟨refilled, all⟩ := @PageHeap.refillLines_refilled P c (g.pageHeap c.kind) page
    (PageHeap.refillEnd P c) 0 none (by omega)
  have whole := held.modify (f := fun _ =>
      ((g.pageHeap c.kind).refillLines P c page (PageHeap.refillEnd P c) 0 none).2)
    (own.refill refilled taken.sizeClass refilled_inv.toCounted
      fun i hi => all i (Nat.zero_le _) (by omega))
  rwa [Function.update_idem,
    show update untaken c.kind [] = untaken from Function.update_eq_self _ untaken] at whole

theorem Enlisted.derefObject {o : Object} (enlisted : h.Enlisted P untaken)
    (inv : h.Inv P objects) (ho : o ∈ objects) : (h.derefObject P o).Enlisted P untaken :=
  enlisted.modify_untaken ((enlisted o.kind).derefLine (inv o.kind).toCounted
    (Multiset.mem_filter.mpr ⟨ho, rfl⟩))

theorem Enlisted.scavengePage (moves : ∀ h, Moves h (f h)) (enlisted : h.Enlisted P untaken) :
    (h.modify k f).Enlisted P untaken :=
  have moves := moves (h.pageHeap k)
  enlisted.modify_untaken ((enlisted k).of_counts moves.pageRefCount moves.pageSizeClass
    moves.pagesWithFreeLines fun _ => moves.freePages.mem_iff)

/-! ## Properties of the heap in every history -/

/-- What every operation on the heap keeps, if the counts are right before it. -/
structure Kept (P : Platform) (Q : Heap → Prop) : Prop where
  refill : ∀ {h h' objects c ranges}, h.Inv P objects → Q h →
    h.refillBumpRangeCache P c = some (ranges, h') → Q h'
  deref : ∀ {h objects o}, h.Inv P objects → o ∈ objects → Q h → Q (h.derefObject P o)
  scavenge : ∀ {h k} {f : PageHeap → PageHeap}, (∀ h, Moves h (f h)) → Q h → Q (h.modify k f)

theorem kept_enlisted : Kept P (Enlisted P untaken) where
  refill := fun inv enlisted eq => enlisted.refillBumpRangeCache inv eq
  deref := fun inv ho enlisted => enlisted.derefObject inv ho
  scavenge := fun moves enlisted => enlisted.scavengePage moves

theorem chunks_le_takeFreePage (eq : h.takeFreePage P k = some (page, h')) :
    h.chunks ≤ h'.chunks := by
  unfold Heap.takeFreePage Heap.allocateVMPage Heap.growIfNeeded at eq
  split at eq
  · obtain ⟨-, rfl⟩ := Prod.mk.inj (Option.some.inj eq)
    exact Nat.le_refl _
  · dsimp only at eq
    split at eq
    · cases eq
    · obtain ⟨-, rfl⟩ := Prod.mk.inj (Option.some.inj eq)
      rw [modify_chunks]
      split_ifs
      · exact Nat.le_succ _
      · exact Nat.le_refl _

/-- Chunks are never given back. -/
theorem chunks_le_refillBumpRangeCache {ranges : List BumpRange}
    (eq : h.refillBumpRangeCache P c = some (ranges, h')) : h.chunks ≤ h'.chunks := by
  obtain ⟨⟨page, g⟩, allocate, pair⟩ := Option.map_eq_some_iff.mp eq
  obtain ⟨-, rfl⟩ := Prod.mk.inj pair
  unfold Heap.allocatePage at allocate
  dsimp only at allocate
  split at allocate
  · obtain ⟨-, rfl⟩ := Prod.mk.inj (Option.some.inj allocate)
    exact Nat.le_refl _
  · obtain ⟨⟨first, g'⟩, free, pair⟩ := Option.map_eq_some_iff.mp allocate
    obtain ⟨-, rfl⟩ := Prod.mk.inj pair
    have le : (h.modify c.kind (·.setPagesWithFreeLines c [])).chunks ≤ g'.chunks :=
      chunks_le_takeFreePage free
    exact le

theorem kept_chunks (n : Nat) : Kept P (n ≤ ·.chunks) where
  refill := fun _ le eq => le.trans (chunks_le_refillBumpRangeCache eq)
  deref := fun _ _ le => le
  scavenge := fun _ le => le

theorem Kept.foldl_derefObject {Q : Heap → Prop} (kept : Kept P Q) (log : List Object)
    (inv : h.Inv P (objects + log)) (q : Q h) : Q (log.foldl (Heap.derefObject P) h) := by
  induction log generalizing h with
  | nil => exact q
  | cons o log ih =>
    rw [← Multiset.cons_coe, Multiset.add_cons] at inv
    exact ih inv.derefObject (kept.deref inv (Multiset.mem_cons_self ..) q)

end Heap

namespace Cache

variable {Q : Heap → Prop} {h h' : Heap} {cache cache' : Cache} {o : Object}
  {others : Multiset Object}

theorem kept_processObjectLog (kept : Heap.Kept P Q) (inv : h.Inv P (cache.objects + others))
    (q : Q h) : Q (cache.processObjectLog P h).1 := by
  have logged : h.Inv P ((∑ c, cache.classObjects c) + others + cache.objectLog) := by
    convert inv using 1
    simp only [Cache.objects]
    abel
  exact kept.foldl_derefObject _ logged q

theorem kept_deallocate (kept : Heap.Kept P Q) (inv : h.Inv P (cache.objects + others))
    (q : Q h) : Q (cache.deallocate P h o).1 := by
  unfold deallocate
  split_ifs
  · exact kept_processObjectLog kept inv q
  · exact q

theorem kept_allocate (kept : Heap.Kept P Q) (inv : h.Inv P (cache.objects + others)) (q : Q h)
    (eq : cache.allocate P c h = some (o, h', cache')) : Q h' := by
  unfold allocate at eq
  split_ifs at eq
  · obtain ⟨⟨o', _⟩, -, pair⟩ := Option.map_eq_some_iff.mp eq
    obtain ⟨-, rfl, -⟩ := by simpa only [Prod.mk.injEq] using pair
    exact q
  · split at eq
    · cases eq
    · rename_i range g cache₁ allocate
      obtain ⟨⟨o', _⟩, -, pair⟩ := Option.map_eq_some_iff.mp eq
      obtain ⟨-, rfl, -⟩ := by simpa only [Prod.mk.injEq] using pair
      unfold allocateBumpRange at allocate
      split at allocate
      · obtain ⟨-, rfl, -⟩ := by simpa only [Option.some.injEq, Prod.mk.injEq] using allocate
        exact q
      · split at allocate
        · cases allocate
        · rename_i pushed g' refill
          split at allocate
          · cases allocate
          · obtain ⟨-, rfl, -⟩ := by simpa only [Option.some.injEq, Prod.mk.injEq] using allocate
            exact kept.refill inv q refill

end Cache

namespace State

variable {Thread : Type} [Fintype Thread] [DecidableEq Thread] {Q : Heap → Prop}
  {s s' : State Thread}

theorem kept_step (kept : Heap.Kept P Q) (inv : s.Inv P) (q : Q s.heap) {action : Action Thread}
    (step : s.step P action = some s') : Q s'.heap := by
  cases action with
  | allocate t size =>
    rw [State.step] at step
    split_ifs at step
    obtain ⟨⟨o, heap, cache⟩, allocate, rfl⟩ := Option.map_eq_some_iff.mp step
    exact Cache.kept_allocate kept (inv.heap_at t) q allocate
  | deallocate t o =>
    rw [State.step] at step
    split_ifs at step
    rw [Option.some.injEq] at step
    subst step
    exact Cache.kept_deallocate (o := o) kept (inv.heap_at t) q
  | processObjectLog t =>
    obtain rfl := Option.some.inj step
    exact Cache.kept_processObjectLog kept (inv.heap_at t) q
  | scavengeObject t c =>
    obtain ⟨result, scavenge, rfl⟩ := Option.map_eq_some_iff.mp step
    obtain ⟨⟨o, cache⟩, bump, rfl⟩ := Option.map_eq_some_iff.mp scavenge
    have heap_inv := inv.heap_at t
    rw [(Cache.bump_spec bump).1, Multiset.cons_add, ← Multiset.add_cons] at heap_inv
    exact Cache.kept_deallocate (o := o) kept heap_inv q
  | scavengeRange t c =>
    obtain ⟨cache, -, rfl⟩ := Option.map_eq_some_iff.mp step
    exact q
  | clear t c =>
    rw [State.step] at step
    split_ifs at step
    obtain rfl := Option.some.inj step
    exact q
  | beginScavengePage k =>
    obtain rfl := Option.some.inj step
    exact kept.scavenge Heap.moves_beginScavengePage q
  | endScavengePage k page =>
    obtain rfl := Option.some.inj step
    exact kept.scavenge (Heap.moves_endScavengePage page) q

theorem kept_run (kept : Heap.Kept P Q) (inv : s.Inv P) (q : Q s.heap)
    {actions : List (Action Thread)} (run : s.run P actions = some s') : Q s'.heap :=
  (Lib.Runs.run_invariant (I := fun s => s.Inv P ∧ Q s.heap)
    (fun h step => ⟨h.1.step step, kept_step kept h.1 h.2 step⟩) ⟨inv, q⟩ run).2

end State

/-! ## Which free lines are out of reach -/

/-- Some line of the page is free, and objects of the page's class can start in it. -/
def PageHeap.HasStartableLine (P : Platform) (h : PageHeap) (page : Nat) : Prop :=
  ∃ i < lineCount P (h.pageSizeClass page).kind,
    (lineMetadata P (h.pageSizeClass page) i).objectCount ≠ 0 ∧
      h.lineRefCount (page * lineCount P (h.pageSizeClass page).kind + i) = 0

/-- The last line of a page fits an object of the class. -/
def UsesLastLine (P : Platform) (c : SizeClass) : Prop :=
  (lineMetadata P c (lineCount P c.kind - 1)).objectCount ≠ 0

theorem usesLastLine_iff : UsesLastLine P c ↔ PageHeap.refillEnd P c = lineCount P c.kind := by
  have two := two_le_lineCount P c.kind
  unfold UsesLastLine PageHeap.refillEnd
  split_ifs with zero
  · simp only [zero, ne_eq, not_true_eq_false, false_iff]
    omega
  · simp [zero]

namespace PageHeap

variable {h : PageHeap} {chunks page : Nat} {objects : Multiset Object}

/-- A page in use is used for a class of its kind. -/
theorem Counted.kind_pageSizeClass (counted : h.Counted P k chunks objects)
    (used : h.pageRefCount page ≠ 0) : (h.pageSizeClass page).kind = k := by
  rw [counted.page, usedLines, ← Nat.pos_iff_ne_zero, Finset.card_pos] at used
  obtain ⟨i, hi⟩ := used
  rw [Finset.mem_filter, Finset.mem_range] at hi
  obtain ⟨lt, line⟩ := hi
  rw [counted.line, ← Nat.pos_iff_ne_zero, Multiset.countP_pos] at line
  obtain ⟨o, ho, eq⟩ := line
  have cls := counted.pageSizeClass_eq ho
  rw [eq, pageOfLine_add lt] at cls
  rw [cls]
  exact counted.kind o ho

/-- A page in use with a free line is listed exactly if its class uses the last line. -/
theorem Enlisted.mem_pagesWithFreeLines_iff (enlisted : h.Enlisted P k chunks [])
    (inv : h.Inv P k chunks objects) (used : h.pageRefCount page ≠ 0)
    (line : h.HasStartableLine P page) :
    page ∈ h.pagesWithFreeLines (h.pageSizeClass page) ↔
      UsesLastLine P (h.pageSizeClass page) := by
  have kind := inv.toCounted.kind_pageSizeClass used
  rw [usesLastLine_iff, kind]
  constructor
  · exact fun mem => (inv.listed_kind _ page mem).2.1
  · intro usable
    refine enlisted.listed page List.not_mem_nil used usable ?_
    obtain ⟨i, lt, -, unused⟩ := line
    rw [kind] at lt unused
    rw [inv.page]
    refine Nat.lt_of_le_of_ne (usedLines_le _ _) fun full => ?_
    exact usedLines_eq_lineCount full lt unused

end PageHeap

/-- A listed page in use makes the next refill of its class take a page in use. -/
theorem Heap.allocatePage_used {h : Heap} {p : Nat}
    (mem : p ∈ (h.pageHeap c.kind).pagesWithFreeLines c)
    (used : (h.pageHeap c.kind).pageRefCount p ≠ 0)
    (cls : (h.pageHeap c.kind).pageSizeClass p = c) :
    ∃ page h', h.allocatePage P c = some (page, h') ∧
      (h.pageHeap c.kind).pageRefCount page ≠ 0 ∧ (h.pageHeap c.kind).pageSizeClass page = c := by
  obtain ⟨⟨page, rest⟩, take⟩ :=
    Option.ne_none_iff_exists'.mp (PageHeap.takePageWithFreeLines_ne_none mem used cls)
  obtain ⟨-, used', cls'⟩ := PageHeap.takePageWithFreeLines_some take
  exact ⟨page, _, by rw [Heap.allocatePage, take], used', cls'⟩

/-- After every history: a page in use with a free line in which objects can start is in the list of
its class exactly if the class uses the last line of a page, and then the next refill of the class
takes a page in use; a page that was in use before and has no object now is in exactly one of the
heap's list, the VM heap's list and the scavenger's hands, once. -/
theorem run_listed_iff_usesLastLine {Thread : Type} [Fintype Thread] [DecidableEq Thread]
    (P : Platform) (before after : List (Action Thread)) (s₀ s : State Thread)
    (start : State.init.run P before = some s₀) (history : s₀.run P after = some s) :
    (∀ k p, (s.heap.pageHeap k).pageRefCount p ≠ 0 → (s.heap.pageHeap k).HasStartableLine P p →
      (p ∈ (s.heap.pageHeap k).pagesWithFreeLines ((s.heap.pageHeap k).pageSizeClass p) ↔
        UsesLastLine P ((s.heap.pageHeap k).pageSizeClass p)) ∧
      (UsesLastLine P ((s.heap.pageHeap k).pageSizeClass p) →
        ∃ page heap, s.heap.allocatePage P ((s.heap.pageHeap k).pageSizeClass p) =
            some (page, heap) ∧
          (s.heap.pageHeap k).pageRefCount page ≠ 0)) ∧
    (∀ k p, (s₀.heap.pageHeap k).pageRefCount p ≠ 0 → (s.heap.pageHeap k).pageRefCount p = 0 →
      (s.heap.pageHeap k).pages.count p + (s.heap.pageHeap k).vmPages.count p +
        (s.heap.pageHeap k).scavenging.count p = 1) := by
  have inv₀ : s₀.Inv P := State.inv_init.run start
  have inv : s.Inv P := inv₀.run history
  have enlisted₀ : s₀.heap.Enlisted P Heap.untaken :=
    State.kept_run Heap.kept_enlisted State.inv_init Heap.enlisted_empty start
  have enlisted : s.heap.Enlisted P Heap.untaken :=
    State.kept_run Heap.kept_enlisted inv₀ enlisted₀ history
  refine ⟨fun k p used line => ?_, fun k p used unused => ?_⟩
  · have iff := (enlisted k).mem_pagesWithFreeLines_iff (inv.heap k) used line
    refine ⟨iff, fun uses => ?_⟩
    have kind := (inv.heap k).toCounted.kind_pageSizeClass used
    obtain ⟨page, heap, eq, used', -⟩ := Heap.allocatePage_used (P := P)
      (c := (s.heap.pageHeap k).pageSizeClass p) (h := s.heap) (p := p)
      (by rw [kind]; exact iff.mpr uses) (by rwa [kind]) (by rw [kind])
    rw [kind] at used'
    exact ⟨page, heap, eq, used'⟩
  · have chunks : s₀.heap.chunks ≤ s.heap.chunks :=
      State.kept_run (Heap.kept_chunks _) inv₀ (Nat.le_refl _) history
    have created := ((enlisted₀ k).created p (.inl used)).mono chunks
    have free := (enlisted k).free p List.not_mem_nil created unused
    have once := List.count_eq_one_of_mem (inv.heap k).free_nodup free
    simpa only [PageHeap.freePages, List.count_append, Nat.add_assoc] using once

/-- An object of 256 bytes fills its line; it is freed and its page is listed for the next one. -/
def oneLine : List (Action Unit) :=
  [.deallocate () ⟨31, 1044480⟩, .processObjectLog ()]

theorem oneLine_listed :
    ∃ s, State.init.run .other ([.allocate () 256] ++ oneLine) = some s ∧
      (s.heap.pageHeap .small).HasStartableLine .other 255 ∧
      255 ∈ (s.heap.pageHeap .small).pagesWithFreeLines 31 := by
  have run : ((State.init.run .other [.allocate () 256]).bind fun s =>
      (s.run .other oneLine).map fun s =>
        ((s.heap.pageHeap .small).pageRefCount 255, (s.heap.pageHeap .small).pageSizeClass 255,
          (s.heap.pageHeap .small).lineRefCount (255 * 16))) = some (15, 31, 0) := by
    decide +kernel
  obtain ⟨s₀, start, rest⟩ := Option.bind_eq_some_iff.mp run
  obtain ⟨s, history, counts⟩ := Option.map_eq_some_iff.mp rest
  simp only [Prod.mk.injEq] at counts
  obtain ⟨page, cls, line⟩ := counts
  have startable : (s.heap.pageHeap .small).HasStartableLine .other 255 := by
    refine ⟨0, ?_, ?_, ?_⟩
    · rw [cls]
      decide
    · rw [cls]
      decide +kernel
    · rw [cls]
      exact line
  have safe := run_listed_iff_usesLastLine .other [.allocate () 256] oneLine s₀ s start history
  have listed := (safe.1 .small 255 (by omega) startable).1
  rw [cls] at listed
  refine ⟨s, ?_, startable, listed.mpr (by unfold UsesLastLine; decide +kernel)⟩
  rw [State.run, Lib.Runs.run, List.foldlM_append]
  exact Option.bind_eq_some_iff.mpr ⟨s₀, start, history⟩

/-- Two objects of 248 bytes start in the first line of a page, and none in the last. Both are
freed; the page has a free line and is in no list. -/
theorem run_strands_page :
    ∃ s : State Unit, State.init.run .other [.allocate () 248, .allocate () 248,
        .deallocate () ⟨30, 1044480⟩, .deallocate () ⟨30, 1044728⟩, .processObjectLog ()] = some s ∧
      (s.heap.pageHeap .small).pageRefCount 255 ≠ 0 ∧
      (s.heap.pageHeap .small).HasStartableLine .other 255 ∧
      255 ∉ (s.heap.pageHeap .small).pagesWithFreeLines
        ((s.heap.pageHeap .small).pageSizeClass 255) := by
  have run : ((State.init.run .other [.allocate () 248, .allocate () 248,
      .deallocate () ⟨30, 1044480⟩, .deallocate () ⟨30, 1044728⟩,
      .processObjectLog ()]).map fun s : State Unit =>
        ((s.heap.pageHeap .small).pageRefCount 255, (s.heap.pageHeap .small).pageSizeClass 255,
          (s.heap.pageHeap .small).lineRefCount (255 * 16),
          (s.heap.pageHeap .small).pagesWithFreeLines 30)) = some (14, 30, 0, []) := by
    decide +kernel
  obtain ⟨s, history, counts⟩ := Option.map_eq_some_iff.mp run
  simp only [Prod.mk.injEq] at counts
  obtain ⟨page, cls, line, lists⟩ := counts
  refine ⟨s, history, by omega, ⟨0, ?_, ?_, ?_⟩, ?_⟩
  · rw [cls]
    decide
  · rw [cls]
    decide +kernel
  · rw [cls]
    exact line
  · rw [cls, lists]
    exact List.not_mem_nil

end Odyssey.Bmalloc
