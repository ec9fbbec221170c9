import Odyssey.WTF.MetaAllocator.Heap

/-!
# Page accounting

The occupancy map is compared with the number of handles that touch a page. Every operation keeps
the two equal, except that `shrink` to nothing forgets the first page of a handle that does not
start on a page boundary. The invariant therefore carries, for each page, the number of references
that were left behind.
-/
namespace Odyssey.WTF.MetaAllocator

def PageEvent.page : PageEvent → Nat
  | .needPage page => page
  | .pageIsFree page => page

/-- The notifications about the page `q`. -/
def eventsOf (events : List PageEvent) (q : Nat) : List PageEvent :=
  events.filter fun e => e.page = q

def State.occupancy (s : State) (q : Nat) : Nat := (s.pageOccupancyMap.find q).getD 0

/-- The block is not empty and intersects the page `q`. -/
def Block.Touches (g : Geometry) (b : Block) (q : Nat) : Prop :=
  0 < b.sizeInBytes ∧ b.start / g.pageSize ≤ q ∧ q ≤ (b.end - 1) / g.pageSize

instance (g : Geometry) (b : Block) (q : Nat) : Decidable (b.Touches g q) := by
  unfold Block.Touches
  infer_instance

/-- The number of handles that touch the page `q`. -/
def State.occupants (g : Geometry) (s : State) (q : Nat) : Nat :=
  total (fun b => if b.Touches g q then 1 else 0) s.handles s.nextHandle

/-! ## The occupancy map, the committed bytes and the notifications -/

/-- The entries `m`, the committed bytes and the notifications (newest first) belong together. -/
structure PageMapInv (g : Geometry) (m : HashMap Nat Nat) (committed : Nat)
    (events : List PageEvent) : Prop where
  positive : ∀ q v, m.find q = some v → 0 < v
  committed : ∃ pages : Finset Nat, (∀ q, q ∈ pages ↔ m.find q ≠ none) ∧
    committed = g.pageSize * pages.card
  alternate : ∀ q, (eventsOf events q).IsChain (· ≠ ·)
  first : ∀ q, (eventsOf events q).getLast? ≠ some (.pageIsFree q)
  latest : ∀ q, (eventsOf events q).head? = some (.needPage q) ↔ m.find q ≠ none

section Events

variable {events : List PageEvent} {e : PageEvent} {q : Nat}

theorem eventsOf_cons_self (h : e.page = q) :
    eventsOf (e :: events) q = e :: eventsOf events q := by simp [eventsOf, h]

theorem eventsOf_cons_ne (h : e.page ≠ q) : eventsOf (e :: events) q = eventsOf events q := by
  simp [eventsOf, h]

theorem alternate_cons (h : (eventsOf events q).IsChain (· ≠ ·))
    (hne : e.page = q → (eventsOf events q).head? ≠ some e) :
    (eventsOf (e :: events) q).IsChain (· ≠ ·) := by
  by_cases hq : e.page = q
  · rw [eventsOf_cons_self hq]
    cases hl : eventsOf events q with
    | nil => exact .singleton e
    | cons a l =>
      rw [hl] at h
      refine .cons_cons ?_ h
      rintro rfl
      simp [hl, hq] at hne
  · rwa [eventsOf_cons_ne hq]

theorem first_cons (h : (eventsOf events q).getLast? ≠ some (.pageIsFree q))
    (hne : eventsOf events q = [] → e ≠ .pageIsFree q) :
    (eventsOf (e :: events) q).getLast? ≠ some (.pageIsFree q) := by
  by_cases hq : e.page = q
  · rw [eventsOf_cons_self hq]
    cases hl : eventsOf events q with
    | nil => simpa using hne hl
    | cons a l => simpa [hl] using h
  · rwa [eventsOf_cons_ne hq]

end Events

namespace PageMapInv

variable {g : Geometry} {m : HashMap Nat Nat} {committed p : Nat} {events : List PageEvent}

theorem initial : PageMapInv g .empty 0 [] :=
  ⟨by simp, ⟨∅, by simp, by simp⟩, by simp [eventsOf], by simp [eventsOf], by simp [eventsOf]⟩

/-- A page without an entry is needed. -/
theorem need (inv : PageMapInv g m committed events) (hp : m.find p = none) :
    PageMapInv g (m.set p 1) (committed + g.pageSize) (.needPage p :: events) := by
  obtain ⟨pages, hpages, hcard⟩ := inv.committed
  have hnot : p ∉ pages := fun h => (hpages p).1 h hp
  refine ⟨?_, ⟨insert p pages, ?_, ?_⟩, ?_, ?_, ?_⟩
  · intro q v
    rw [HashMap.find_set]
    split_ifs
    · rintro ⟨rfl⟩
      exact Nat.one_pos
    · exact inv.positive q v
  · intro q
    rw [Finset.mem_insert, HashMap.find_set]
    split_ifs with hq <;> simp [hq, hpages]
  · rw [Finset.card_insert_of_notMem hnot, hcard, Nat.mul_add, Nat.mul_one]
  · refine fun q => alternate_cons (inv.alternate q) ?_
    rintro rfl h
    exact (inv.latest p).1 h hp
  · exact fun q => first_cons (inv.first q) (by simp)
  · intro q
    rw [HashMap.find_set]
    by_cases hq : p = q
    · rw [eventsOf_cons_self (e := .needPage p) hq]
      simp [hq]
    · rw [eventsOf_cons_ne (e := .needPage p) hq, inv.latest, if_neg (Ne.symm hq)]

/-- The number of references of a page changes and stays positive. -/
theorem update (inv : PageMapInv g m committed events) {v w : Nat} (hp : m.find p = some v)
    (hw : 0 < w) : PageMapInv g (m.set p w) committed events := by
  obtain ⟨pages, hpages, hcard⟩ := inv.committed
  have hsame : ∀ q, (m.set p w).find q ≠ none ↔ m.find q ≠ none := by
    intro q
    rw [HashMap.find_set]
    split_ifs with hq <;> simp [hq, hp]
  refine ⟨?_, ⟨pages, fun q => (hpages q).trans (hsame q).symm, hcard⟩, inv.alternate, inv.first,
    fun q => (inv.latest q).trans (hsame q).symm⟩
  intro q u
  rw [HashMap.find_set]
  split_ifs
  · rintro ⟨rfl⟩
    exact hw
  · exact inv.positive q u

/-- The last reference of a page goes away. -/
theorem free (inv : PageMapInv g m committed events) {v : Nat} (hp : m.find p = some v) :
    PageMapInv g (m.remove p) (committed - g.pageSize) (.pageIsFree p :: events) := by
  obtain ⟨pages, hpages, hcard⟩ := inv.committed
  have hmem : p ∈ pages := (hpages p).2 (by simp [hp])
  have hlatest : (eventsOf events p).head? = some (.needPage p) := (inv.latest p).2 (by simp [hp])
  refine ⟨?_, ⟨pages.erase p, ?_, ?_⟩, ?_, ?_, ?_⟩
  · intro q u
    rw [HashMap.find_remove]
    split_ifs
    · simp
    · exact inv.positive q u
  · intro q
    rw [Finset.mem_erase, HashMap.find_remove]
    split_ifs with hq <;> simp [hq, hpages]
  · rw [Finset.card_erase_of_mem hmem, hcard, Nat.mul_sub, Nat.mul_one]
  · refine fun q => alternate_cons (inv.alternate q) ?_
    rintro rfl
    simp [PageEvent.page, hlatest]
  · refine fun q => first_cons (inv.first q) ?_
    rintro hnil ⟨rfl⟩
    simp [hnil] at hlatest
  · intro q
    rw [HashMap.find_remove]
    by_cases hq : p = q
    · rw [eventsOf_cons_self (e := .pageIsFree p) hq]
      simp [hq]
    · rw [eventsOf_cons_ne (e := .pageIsFree p) hq, inv.latest, if_neg (Ne.symm hq)]

end PageMapInv

abbrev State.PageMapInv (g : Geometry) (s : State) : Prop :=
  MetaAllocator.PageMapInv g s.pageOccupancyMap s.bytesCommitted s.notifications

section Loops

variable {g : Geometry} {s : State}

theorem incrementPage_spec (inv : s.PageMapInv g) (p : Nat) : (s.incrementPage g p).PageMapInv g ∧
    ∀ q, (s.incrementPage g p).occupancy q = s.occupancy q + if q = p then 1 else 0 := by
  unfold State.incrementPage
  cases hp : s.pageOccupancyMap.find p with
  | none =>
    refine ⟨by simpa only [HashMap.add_of_find_none hp] using inv.need hp, fun q => ?_⟩
    simp only [State.occupancy, HashMap.add_of_find_none hp, HashMap.find_set]
    split_ifs with hq <;> simp [hq, hp]
  | some v =>
    refine ⟨inv.update hp (Nat.succ_pos v), fun q => ?_⟩
    simp only [State.occupancy, HashMap.find_set]
    split_ifs with hq <;> simp [hq, hp]

theorem decrementPage_spec (inv : s.PageMapInv g) {p : Nat} (hp : 0 < s.occupancy p) :
    ∃ t, s.decrementPage g p = .ok t ∧ t.PageMapInv g ∧
      ∀ q, t.occupancy q + (if q = p then 1 else 0) = s.occupancy q := by
  unfold State.decrementPage
  cases hv : s.pageOccupancyMap.find p with
  | none => simp [State.occupancy, hv] at hp
  | some v =>
    have hpos := inv.positive p v hv
    simp only
    split_ifs with hone
    · refine ⟨_, rfl, inv.free hv, fun q => ?_⟩
      simp only [State.occupancy, HashMap.find_remove]
      split_ifs with hq <;> simp [hq, hv]
      omega
    · refine ⟨_, rfl, inv.update hv (by omega), fun q => ?_⟩
      simp only [State.occupancy, HashMap.find_set]
      split_ifs with hq <;> simp [hq, hv]
      omega

theorem incrementPages_spec (inv : s.PageMapInv g) (p count : Nat) :
    (s.incrementPages g p count).PageMapInv g ∧ ∀ q, (s.incrementPages g p count).occupancy q =
      s.occupancy q + if p ≤ q ∧ q < p + count then 1 else 0 := by
  induction count generalizing s p with
  | zero => exact ⟨inv, fun q => by simp [State.incrementPages]⟩
  | succ count ih =>
    obtain ⟨inv', hocc⟩ := incrementPage_spec inv p
    obtain ⟨hinv, hrest⟩ := ih inv' (p + 1)
    refine ⟨hinv, fun q => ?_⟩
    rw [State.incrementPages, hrest, hocc]
    split_ifs <;> omega

theorem decrementPages_spec (inv : s.PageMapInv g) {p count : Nat}
    (hp : ∀ q, p ≤ q → q < p + count → 0 < s.occupancy q) :
    ∃ t, s.decrementPages g p count = .ok t ∧ t.PageMapInv g ∧
      ∀ q, t.occupancy q + (if p ≤ q ∧ q < p + count then 1 else 0) = s.occupancy q := by
  induction count generalizing s p with
  | zero => exact ⟨s, rfl, inv, fun q => by simp⟩
  | succ count ih =>
    obtain ⟨u, hu, inv', hocc⟩ := decrementPage_spec inv (hp p le_rfl (by omega))
    obtain ⟨t, ht, hinv, hrest⟩ := ih inv' (p := p + 1) fun q hle hlt => by
      have := hocc q
      have := hp q (by omega) (by omega)
      split_ifs at * <;> omega
    refine ⟨t, by simp only [State.decrementPages, hu, bind, Except.bind, ht], hinv, fun q => ?_⟩
    rw [← hocc, ← hrest]
    split_ifs <;> omega

theorem range_iff_touches {address sizeInBytes q : Nat} (hpos : 0 < sizeInBytes) :
    (address / g.pageSize ≤ q ∧ q < address / g.pageSize +
      ((address + sizeInBytes - 1) / g.pageSize + 1 - address / g.pageSize)) ↔
      Block.Touches g ⟨address, sizeInBytes⟩ q := by
  simp only [Block.Touches, Block.end]
  have := Nat.div_le_div_right (c := g.pageSize) (show address ≤ address + sizeInBytes - 1 by omega)
  omega

theorem incrementPageOccupancy_spec (inv : s.PageMapInv g) (address : Nat) {sizeInBytes : Nat}
    (hpos : 0 < sizeInBytes) : (s.incrementPageOccupancy g address sizeInBytes).PageMapInv g ∧
      ∀ q, (s.incrementPageOccupancy g address sizeInBytes).occupancy q =
        s.occupancy q + if Block.Touches g ⟨address, sizeInBytes⟩ q then 1 else 0 := by
  unfold State.incrementPageOccupancy
  simpa only [range_iff_touches hpos] using incrementPages_spec inv (address / g.pageSize)
    ((address + sizeInBytes - 1) / g.pageSize + 1 - address / g.pageSize)

theorem decrementPageOccupancy_spec (inv : s.PageMapInv g) (address : Nat) {sizeInBytes : Nat}
    (hpos : 0 < sizeInBytes)
    (hocc : ∀ q, Block.Touches g ⟨address, sizeInBytes⟩ q → 0 < s.occupancy q) :
    ∃ t, s.decrementPageOccupancy g address sizeInBytes = .ok t ∧ t.PageMapInv g ∧
      ∀ q, t.occupancy q + (if Block.Touches g ⟨address, sizeInBytes⟩ q then 1 else 0) =
        s.occupancy q := by
  unfold State.decrementPageOccupancy
  simpa only [range_iff_touches hpos] using
    decrementPages_spec inv fun q hle hlt => hocc q ((range_iff_touches hpos).1 ⟨hle, hlt⟩)

/-- The pages `shrink` gives back. -/
def ShrinkFrees (g : Geometry) (freeStart freeSize q : Nat) : Prop :=
  (freeStart + g.pageSize - 1) / g.pageSize ≤ q ∧ q ≤ (freeStart + freeSize - 1) / g.pageSize

instance (g : Geometry) (freeStart freeSize q : Nat) :
    Decidable (ShrinkFrees g freeStart freeSize q) := by
  unfold ShrinkFrees
  infer_instance

theorem shrinkPages_spec (inv : s.PageMapInv g) {freeStart freeSize : Nat} (hpos : 0 < freeSize)
    (hocc : ∀ q, ShrinkFrees g freeStart freeSize q → 0 < s.occupancy q) :
    ∃ t, shrinkPages g s freeStart freeSize = .ok t ∧ t.PageMapInv g ∧
      ∀ q, t.occupancy q + (if ShrinkFrees g freeStart freeSize q then 1 else 0) =
        s.occupancy q := by
  have hpage : 0 < g.pageSize := Nat.two_pow_pos _
  unfold shrinkPages
  simp only
  have hfirst : freeStart ≤ (freeStart + g.pageSize - 1) / g.pageSize * g.pageSize := by
    have := Nat.div_add_mod' (freeStart + g.pageSize - 1) g.pageSize
    have := Nat.mod_lt (freeStart + g.pageSize - 1) hpage
    omega
  generalize hk : (freeStart + g.pageSize - 1) / g.pageSize = k at hfirst
  split_ifs with hlt
  · have htouch : ∀ q, ShrinkFrees g freeStart freeSize q ↔
        Block.Touches g ⟨k * g.pageSize, freeSize - (k * g.pageSize - freeStart)⟩ q := by
      intro q
      simp only [ShrinkFrees, Block.Touches, Block.end, hk, Nat.mul_div_cancel _ hpage]
      rw [show k * g.pageSize + (freeSize - (k * g.pageSize - freeStart)) =
        freeStart + freeSize by omega]
      omega
    simp only [htouch] at hocc ⊢
    exact decrementPageOccupancy_spec inv _ (by omega) hocc
  · refine ⟨s, rfl, inv, fun q => ?_⟩
    have hnot : ¬ ShrinkFrees g freeStart freeSize q := by
      rintro ⟨hle, hlast⟩
      have := (Nat.le_div_iff_mul_le hpage).1 (hk ▸ hle.trans hlast)
      omega
    rw [if_neg hnot, Nat.add_zero]

end Loops

/-! ## The operations -/

/-- The call leaves the count of the page `q` one too high: `shrink` to nothing frees the bytes
from the start of the handle on, but gives back only the pages from the next boundary on. -/
def State.ForgetsPage (g : Geometry) (s : State) (op : Op) (q : Nat) : Prop :=
  match op with
  | .shrink handle newSizeInBytes => newSizeInBytes = 0 ∧ ∃ h, s.handles.find handle = some h ∧
      0 < h.sizeInBytes ∧ ¬ g.pageSize ∣ h.start ∧ q = h.start / g.pageSize
  | _ => False

/-- The occupancy map counts the handles on each page, and `extra` more. -/
structure PagesInv (g : Geometry) (s : State) (extra : Nat → Nat) : Prop where
  ledger : s.PageMapInv g
  count : ∀ q, s.occupancy q = s.occupants g q + extra q

theorem roundUp_error {g : Geometry} {n : Nat} {e : Fault} (h : roundUp g n = .error e) :
    e = .crash := by
  unfold roundUp at h
  split_ifs at h
  cases h
  rfl

/-- Every fault of `allocate` is a call of `CRASH()`: it never decrements a count. -/
theorem allocate_ne_missingPage {g : Geometry} {s : State} {sizeInBytes : Nat}
    {found : Option Nat} {newSpace : Option (Nat × Nat)} :
    s.allocate g sizeInBytes found newSpace ≠ .error .missingPage := by
  unfold State.allocate
  split_ifs
  · simp
  cases hr : roundUp g sizeInBytes with
  | error e => simp [bind, Except.bind, roundUp_error hr]
  | ok size =>
    simp only [bind, Except.bind]
    split_ifs
    · cases newSpace <;> simp
    · simp

namespace PagesInv

variable {g : Geometry} {s t u : State} {extra : Nat → Nat} {b : Block} {handle : Nat}

theorem of_samePages (inv : PagesInv g s extra) (h : s.SamePages u) : PagesInv g u extra := by
  refine ⟨?_, fun q => ?_⟩
  · rw [State.PageMapInv, h.pageOccupancyMap, h.bytesCommitted, h.notifications]
    exact inv.ledger
  · rw [State.occupancy, State.occupants, h.pageOccupancyMap, h.handles, h.nextHandle]
    exact inv.count q

theorem makeHandle (inv : PagesInv g s extra) (heap : HeapInv g s b) (hpos : 0 < b.sizeInBytes) :
    PagesInv g (s.makeHandle g b.start b.sizeInBytes) extra := by
  obtain ⟨hledger, hocc⟩ := incrementPageOccupancy_spec inv.ledger b.start hpos
  have same : s.SameButPages (s.incrementPageOccupancy g b.start b.sizeInBytes) :=
    incrementPages_sameButPages g s _ _
  have hnone : s.handles.find s.nextHandle = none :=
    Option.eq_none_iff_forall_ne_some.2 fun c hc => absurd (heap.pointers _ c hc) (lt_irrefl _)
  refine ⟨hledger, fun q => ?_⟩
  have hset := total_set (w := fun b => if b.Touches g q then 1 else 0) (m := s.handles) b
    (Nat.lt_succ_self s.nextHandle)
  rw [hnone, total_succ hnone] at hset
  have hoccupants : (s.makeHandle g b.start b.sizeInBytes).occupants g q =
      s.occupants g q + if b.Touches g q then 1 else 0 := by
    rw [State.makeHandle, same]
    exact hset
  rw [hoccupants]
  change (s.incrementPageOccupancy g b.start b.sizeInBytes).occupancy q = _
  rw [hocc, inv.count]
  exact Nat.add_right_comm _ _ _

theorem giveBack {H : HashMap Nat Block} {start sizeInBytes : Nat} (hledger : u.PageMapInv g)
    (hcount : ∀ q, u.occupancy q =
      total (fun b => if b.Touches g q then 1 else 0) H u.nextHandle + extra q) :
    PagesInv g (u.giveBack H start sizeInBytes) extra := by
  have same := (addFreeSpace_sameElsewhere
    { u with bytesAllocated := u.bytesAllocated - sizeInBytes } start sizeInBytes).samePages
  refine ⟨?_, fun q => ?_⟩
  · rw [State.PageMapInv, State.giveBack, State.addFreeSpaceFromReleasedHandle]
    simp only [same.pageOccupancyMap, same.bytesCommitted, same.notifications]
    exact hledger
  · rw [State.occupancy, State.occupants, State.giveBack, State.addFreeSpaceFromReleasedHandle]
    simp only [same.pageOccupancyMap, same.nextHandle]
    exact hcount q

/-- A handle is one of the occupants of each page it touches. -/
theorem occupancy_pos (inv : PagesInv g s extra) (heap : HeapInv g s noLimbo)
    (hb : s.handles.find handle = some b) {q : Nat} (hq : b.Touches g q) : 0 < s.occupancy q := by
  have hremove := total_remove (w := fun b => if b.Touches g q then 1 else 0)
    (heap.pointers handle b hb) hb
  rw [if_pos hq] at hremove
  rw [inv.count, State.occupants]
  omega

theorem release (inv : PagesInv g s extra) (heap : HeapInv g s noLimbo)
    (hb : s.handles.find handle = some b) :
    ∃ t, s.release g handle = .ok t ∧ PagesInv g t extra := by
  have hremove := fun q => total_remove (w := fun b => if b.Touches g q then 1 else 0)
    (heap.pointers handle b hb) hb
  rw [release_eq hb]
  split_ifs with hzero
  · refine ⟨_, rfl, inv.ledger, fun q => ?_⟩
    have hnot : ¬ b.Touches g q := by simp [Block.Touches, hzero]
    have := hremove q
    rw [if_neg hnot] at this
    exact (inv.count q).trans (congrArg (· + extra q) this.symm)
  · obtain ⟨u, hu, hledger, hocc⟩ := decrementPageOccupancy_spec inv.ledger b.start
      (Nat.pos_of_ne_zero hzero) fun q hq => inv.occupancy_pos heap hb hq
    have same := decrementPages_sameButPages hu
    refine ⟨_, by rw [hu]; rfl, giveBack hledger fun q => ?_⟩
    have hsum := hocc q
    rw [inv.count, State.occupants, ← hremove q] at hsum
    rw [show u.handles = s.handles by rw [same], show u.nextHandle = s.nextHandle by rw [same]]
    change _ + (if b.Touches g q then 1 else 0) = _ at hsum
    omega

/-- What a handle touches is what the shrunk handle touches and what `shrink` gives back, unless
nothing is left of the handle. -/
theorem touches_shrink {size : Nat} (hsize : size < b.sizeInBytes) (hpos : 0 < size) (q : Nat) :
    (if b.Touches g q then 1 else 0) = (if Block.Touches g ⟨b.start, size⟩ q then 1 else 0) +
      if ShrinkFrees g (b.start + size) (b.sizeInBytes - size) q then 1 else 0 := by
  have hpage : 0 < g.pageSize := Nat.two_pow_pos _
  have hceil : (b.start + size + g.pageSize - 1) / g.pageSize =
      (b.start + size - 1) / g.pageSize + 1 := by
    rw [show b.start + size + g.pageSize - 1 = b.start + size - 1 + g.pageSize by omega,
      Nat.add_div_right _ hpage]
  have hfirst := Nat.div_le_div_right (c := g.pageSize)
    (show b.start ≤ b.start + size - 1 by omega)
  have hlast := Nat.div_le_div_right (c := g.pageSize)
    (show b.start + size - 1 ≤ b.start + b.sizeInBytes - 1 by omega)
  have hend : b.start + size + (b.sizeInBytes - size) = b.start + b.sizeInBytes := by omega
  split_ifs <;> simp only [Block.Touches, ShrinkFrees, Block.end, hceil, hend] at * <;> omega

theorem touches_shrink_zero (hsize : 0 < b.sizeInBytes) (q : Nat) :
    (if b.Touches g q then 1 else 0) = (if ShrinkFrees g b.start b.sizeInBytes q then 1 else 0) +
      if ¬ g.pageSize ∣ b.start ∧ q = b.start / g.pageSize then 1 else 0 := by
  have hpage : 0 < g.pageSize := Nat.two_pow_pos _
  have hlast := Nat.div_le_div_right (c := g.pageSize)
    (show b.start ≤ b.start + b.sizeInBytes - 1 by omega)
  have hceil : (b.start + g.pageSize - 1) / g.pageSize =
      b.start / g.pageSize + if g.pageSize ∣ b.start then 0 else 1 := by
    have hdiv := Nat.div_add_mod' b.start g.pageSize
    have hmod := Nat.mod_lt b.start hpage
    split_ifs with hdvd
    · have := Nat.mod_eq_zero_of_dvd hdvd
      rw [Nat.add_zero]
      exact Nat.div_eq_of_lt_le (by omega) (by rw [Nat.succ_mul]; omega)
    · have : b.start % g.pageSize ≠ 0 := fun h => hdvd (Nat.dvd_of_mod_eq_zero h)
      exact Nat.div_eq_of_lt_le (by rw [Nat.succ_mul]; omega)
        (by rw [Nat.succ_mul, Nat.succ_mul]; omega)
  split_ifs at * <;> simp only [Block.Touches, ShrinkFrees, Block.end, hceil] at * <;> omega

theorem shrink (inv : PagesInv g s extra) (heap : HeapInv g s noLimbo) {newSizeInBytes : Nat}
    (hb : s.handles.find handle = some b) (hle : newSizeInBytes ≤ b.sizeInBytes) :
    s.shrink g handle newSizeInBytes = .error .crash ∨
      ∃ t, s.shrink g handle newSizeInBytes = .ok t ∧ PagesInv g t fun q =>
        extra q + if newSizeInBytes = 0 ∧ 0 < b.sizeInBytes ∧ ¬ g.pageSize ∣ b.start ∧
          q = b.start / g.pageSize then 1 else 0 := by
  cases hr : roundUp g newSizeInBytes with
  | error e =>
    cases roundUp_error hr
    exact .inl (by simp only [State.shrink, hr, bind, Except.bind])
  | ok size =>
  right
  obtain ⟨-, -, hnew, hleast⟩ := roundUp_ok hr
  have hsize : size ≤ b.sizeInBytes := hleast _ (heap.aligned handle b hb).2 hle
  have hzero : size = 0 ↔ newSizeInBytes = 0 :=
    ⟨fun h => by omega, fun h => Nat.le_zero.1 (hleast 0 ⟨0, rfl⟩ h.le)⟩
  rw [shrink_eq hb hr]
  split_ifs with hsame
  · refine ⟨s, rfl, inv.ledger, fun q => ?_⟩
    rw [inv.count, if_neg (by omega), Nat.add_zero]
  have hset := fun q => total_set (w := fun b => if b.Touches g q then 1 else 0)
    (m := s.handles) ⟨b.start, size⟩ (heap.pointers handle b hb)
  simp only [hb, Option.map_some, Option.getD_some] at hset
  have hsplit : ∀ q, (if b.Touches g q then 1 else 0) =
      (if Block.Touches g ⟨b.start, size⟩ q then 1 else 0) +
      (if ShrinkFrees g (b.start + size) (b.sizeInBytes - size) q then 1 else 0) +
      if newSizeInBytes = 0 ∧ 0 < b.sizeInBytes ∧ ¬ g.pageSize ∣ b.start ∧
        q = b.start / g.pageSize then 1 else 0 := by
    intro q
    rcases Nat.eq_zero_or_pos size with rfl | hpos
    · have hnot : ¬ Block.Touches g ⟨b.start, 0⟩ q := fun h => absurd h.1 (lt_irrefl 0)
      have hlt : 0 < b.sizeInBytes := by omega
      simpa [hnot, hzero.1 rfl, hlt] using touches_shrink_zero hlt q
    · have hnot : newSizeInBytes ≠ 0 := fun h => hpos.ne' (hzero.2 h)
      simpa [hnot] using touches_shrink (by omega) hpos q
  obtain ⟨u, hu, hledger, hocc⟩ := shrinkPages_spec inv.ledger
    (show 0 < b.sizeInBytes - size by omega) fun q hq => inv.occupancy_pos heap hb (q := q) <| by
      by_contra hnot
      have := hsplit q
      rw [if_neg hnot, if_pos hq] at this
      omega
  have same := shrinkPages_sameButPages hu
  refine ⟨_, by rw [hu]; rfl, giveBack hledger fun q => ?_⟩
  rw [show u.handles = s.handles by rw [same], show u.nextHandle = s.nextHandle by rw [same]]
  have h₁ := hocc q
  have h₂ := hset q
  have h₃ := hsplit q
  rw [inv.count, State.occupants] at h₁
  omega

/-- One call: it never meets a missing page, and `extra` grows exactly where the call forgets a
page. -/
theorem exec (inv : PagesInv g s extra) (heap : HeapInv g s noLimbo) {op : Op}
    (hadmits : s.Admits g op) : s.exec g op ≠ .error .missingPage ∧
      ∀ t, s.exec g op = .ok t → ∃ extra', PagesInv g t extra' ∧
        ∀ q, extra q ≤ extra' q ∧ (extra' q = extra q ↔ ¬ s.ForgetsPage g op q) := by
  cases op with
  | addFreshFreeSpace start sizeInBytes =>
    refine ⟨by simp [State.exec], fun t ht => ⟨extra, ?_, by simp [State.ForgetsPage]⟩⟩
    cases ht
    have same := (addFreeSpace_sameElsewhere { s with
      bytesReserved := s.bytesReserved + sizeInBytes
      reserved := ⟨start, sizeInBytes⟩ :: s.reserved } start sizeInBytes).samePages
    exact inv.of_samePages ⟨same.handles, same.nextHandle, same.pageOccupancyMap,
      same.bytesCommitted, same.notifications⟩
  | allocate sizeInBytes found newSpace =>
    refine ⟨allocate_ne_missingPage, fun t ht => ⟨extra, ?_, by simp [State.ForgetsPage]⟩⟩
    rcases heap.allocate_ok hadmits ht with rfl | ⟨u, b, hheap, same, -, hpos, rfl⟩
    · exact inv
    · exact (inv.of_samePages same).makeHandle hheap hpos
  | shrink handle newSizeInBytes =>
    obtain ⟨b, hb, hle⟩ := hadmits
    change s.shrink g handle newSizeInBytes ≠ _ ∧ ∀ t, s.shrink g handle newSizeInBytes = _ → _
    rcases inv.shrink heap hb hle with hcrash | ⟨t, ht, hinv⟩
    · simp [hcrash]
    · rw [ht]
      refine ⟨by simp, ?_⟩
      rintro t ⟨rfl⟩
      refine ⟨_, hinv, fun q => ⟨Nat.le_add_right _ _, ?_⟩⟩
      simp [State.ForgetsPage, hb]
  | release handle =>
    obtain ⟨b, hb⟩ := hadmits
    obtain ⟨t, ht, hinv⟩ := inv.release heap hb
    change s.release g handle ≠ _ ∧ ∀ t, s.release g handle = _ → _
    rw [ht]
    refine ⟨by simp, ?_⟩
    rintro t ⟨rfl⟩
    exact ⟨extra, hinv, by simp [State.ForgetsPage]⟩

theorem of_run {steps : List (State × Op)} (h : Run g steps s) : ∃ extra, PagesInv g s extra ∧
    ∀ q, extra q = 0 ↔ ∀ step ∈ steps, ¬ step.1.ForgetsPage g step.2 q := by
  induction h with
  | initial => exact ⟨fun _ => 0, ⟨.initial, fun q => rfl⟩, by simp⟩
  | step hrun hadmits hexec ih =>
    obtain ⟨extra, inv, hextra⟩ := ih
    obtain ⟨extra', inv', hgrows⟩ :=
      (inv.exec (HeapInv.of_reachable hrun.reachable) hadmits).2 _ hexec
    refine ⟨extra', inv', fun q => ?_⟩
    have := hextra q
    obtain ⟨hle, hiff⟩ := hgrows q
    rw [List.forall_mem_cons, ← this, ← hiff]
    omega

end PagesInv

/-- The page accounting agrees with the handles that are alive. -/
structure PageAccounting (g : Geometry) (s : State) : Prop where
  occupancy : ∀ q, s.pageOccupancyMap.find q =
    if s.occupants g q = 0 then none else some (s.occupants g q)
  committed : ∃ pages : Finset Nat, (∀ q, q ∈ pages ↔ s.pageOccupancyMap.find q ≠ none) ∧
    s.bytesCommitted = g.pageSize * pages.card
  neverMissing : ∀ op, s.Admits g op → s.exec g op ≠ .error .missingPage
  alternate : ∀ q, (eventsOf s.notifications q).IsChain (· ≠ ·) ∧
    (eventsOf s.notifications q).getLast? ≠ some (.pageIsFree q)

/-- After a run the page accounting agrees with the handles exactly when no call of the run shrank
to nothing a handle that starts inside a page. -/
theorem pageAccounting_iff {g : Geometry} {s : State} {steps : List (State × Op)}
    (h : Run g steps s) :
    PageAccounting g s ↔ ∀ step ∈ steps, ∀ q, ¬ step.1.ForgetsPage g step.2 q := by
  obtain ⟨extra, inv, hextra⟩ := PagesInv.of_run h
  have heap := HeapInv.of_reachable h.reachable
  constructor
  · intro hacc step hstep q
    refine (hextra q).1 ?_ step hstep
    have := inv.count q
    rw [State.occupancy, hacc.occupancy] at this
    split_ifs at this <;> simp_all
  · intro hkeeps
    refine ⟨fun q => ?_, inv.ledger.committed, fun op hop => (inv.exec heap hop).1,
      fun q => ⟨inv.ledger.alternate q, inv.ledger.first q⟩⟩
    have hzero := (hextra q).2 fun step hstep => hkeeps step hstep q
    have hcount := inv.count q
    rw [hzero, Nat.add_zero, State.occupancy] at hcount
    rw [← hcount]
    cases hq : s.pageOccupancyMap.find q with
    | none => simp
    | some v => simp [(inv.ledger.positive q v hq).ne']

theorem pageAccounting_after_allocate : ∃ s, PageAccounting smallPages s ∧
    s.pageOccupancyMap.find 1 = some 1 ∧ s.bytesCommitted = 4096 := by
  have hfresh : Run smallPages _ _ := .step .initial
    (show State.Admits _ _ (.addFreshFreeSpace 4096 8192) from
      ⟨⟨by decide, by decide, by simp [State.initial]⟩, by decide, by decide⟩) rfl
  have hrun : Run smallPages _ _ := .step hfresh
    (show State.Admits _ _ (.allocate 32 (some 0) none) from fun size hsize => by
      cases hsize
      exact ⟨⟨8192, by decide, by decide, by decide⟩, trivial⟩) rfl
  exact ⟨_, (pageAccounting_iff hrun).2 (by simp [State.ForgetsPage]), rfl, rfl⟩

/-- Two handles of 32 bytes share a page. The second one is shrunk to nothing, both are released,
and the page stays committed. -/
theorem shrink_to_nothing_leaks_page : ∃ steps s, Run smallPages steps s ∧
    ¬ PageAccounting smallPages s ∧ s.bytesAllocated = 0 ∧ s.bytesCommitted = 4096 := by
  have hfresh : Run smallPages _ _ := .step .initial
    (show State.Admits _ _ (.addFreshFreeSpace 4096 8192) from
      ⟨⟨by decide, by decide, by simp [State.initial]⟩, by decide, by decide⟩) rfl
  have hfirst : Run smallPages _ _ := .step hfresh
    (show State.Admits _ _ (.allocate 32 (some 0) none) from fun size hsize => by
      cases hsize
      exact ⟨⟨8192, by decide, by decide, by decide⟩, trivial⟩) rfl
  have hsecond : Run smallPages _ _ := .step hfirst
    (show State.Admits _ _ (.allocate 32 (some 0) none) from fun size hsize => by
      cases hsize
      exact ⟨⟨8160, by decide, by decide, by decide⟩, trivial⟩) rfl
  have hshrunk : Run smallPages _ _ := .step hsecond
    (show State.Admits _ _ (.shrink 1 0) from ⟨_, rfl, by decide⟩) rfl
  have hreleased : Run smallPages _ _ := .step hshrunk
    (show State.Admits _ _ (.release 1) from ⟨_, rfl⟩) rfl
  have hrun : Run smallPages _ _ := .step hreleased
    (show State.Admits _ _ (.release 0) from ⟨_, rfl⟩) rfl
  refine ⟨_, _, hrun, fun hacc => ?_, rfl, rfl⟩
  have hpage : some 1 = none := hacc.occupancy 1
  cases hpage

end Odyssey.WTF.MetaAllocator
