import Odyssey.WTF.MetaAllocator.FreeSpace

/-!
# The heap invariant of the meta-allocator

Between two calls every reserved byte is free or belongs to a live handle. During a call one block
of bytes is in limbo: it was taken from the free space, from a handle or from the system, and not
yet given to its new owner. Each step of an operation moves one block into or out of the limbo.
-/
namespace Odyssey.WTF.MetaAllocator

/-- The byte `x` belongs to a live handle. -/
def State.LiveAt (s : State) (x : Nat) : Prop := ∃ i h, s.handles.find i = some h ∧ h.Contains x

/-- The byte `x` belongs to a range the allocator was given. -/
def State.ReservedAt (s : State) (x : Nat) : Prop := ∃ b ∈ s.reserved, b.Contains x

/-- No block is in limbo. -/
def noLimbo : Block := ⟨0, 0⟩

@[simp] theorem not_noLimbo_contains (x : Nat) : ¬ noLimbo.Contains x := by
  simp [noLimbo, Block.Contains, Block.end]

structure HeapInv (g : Geometry) (s : State) (limbo : Block) : Prop where
  free : FreeSpaceInv g s
  pointers : ∀ i h, s.handles.find i = some h → i < s.nextHandle
  aligned : ∀ i h, s.handles.find i = some h → h.Aligned g
  disjoint : ∀ i j a b x, s.handles.find i = some a → s.handles.find j = some b → i ≠ j →
    a.Contains x → ¬ b.Contains x
  liveNotFree : ∀ x, s.LiveAt x → ¬ s.FreeAt x
  limboNotFree : ∀ x, limbo.Contains x → ¬ s.FreeAt x
  limboNotLive : ∀ x, limbo.Contains x → ¬ s.LiveAt x
  cover : ∀ x, s.ReservedAt x ↔ s.FreeAt x ∨ s.LiveAt x ∨ limbo.Contains x
  allocated : s.bytesAllocated = total Block.sizeInBytes s.handles s.nextHandle
  balance : s.bytesReserved = s.bytesAllocated + s.freeBytes + limbo.sizeInBytes
  positive : ∀ b ∈ s.reserved, 0 < b.start

theorem Block.separated {a b : Block} (ha : 0 < a.sizeInBytes) (hb : 0 < b.sizeInBytes)
    (h : ∀ x, a.Contains x → ¬ b.Contains x) : a.end ≤ b.start ∨ b.end ≤ a.start := by
  by_contra hcon
  refine h (max a.start b.start) ?_ ?_ <;> simp only [Block.Contains, Block.end] at * <;> omega

namespace HeapInv

variable {g : Geometry} {s t : State} {limbo b h : Block} {i start sizeInBytes : Nat}

theorem initial : HeapInv g .initial noLimbo := by
  refine ⟨⟨?_, ?_, ?_, ?_, ?_, ?_, ?_, ?_⟩, ?_, ?_, ?_, ?_, ?_, ?_, ?_, ?_, ?_, ?_⟩ <;>
    simp [State.initial, State.LiveAt, State.FreeAt, State.ReservedAt, Indexes, total,
      State.freeBytes, noLimbo, Block.Contains, Block.end]

/-- The system or the caller gives the allocator a fresh range. -/
theorem reserve (inv : HeapInv g s noLimbo) (fresh : s.Fresh start sizeInBytes) :
    HeapInv g { s with
      bytesReserved := s.bytesReserved + sizeInBytes
      reserved := ⟨start, sizeInBytes⟩ :: s.reserved } ⟨start, sizeInBytes⟩ := by
  obtain ⟨hstart, hsize, hfresh⟩ := fresh
  have unreserved : ∀ x, (⟨start, sizeInBytes⟩ : Block).Contains x → ¬ s.ReservedAt x := by
    rintro x hx ⟨c, hc, hcx⟩
    have := hfresh c hc
    simp only [Block.Contains, Block.end] at *
    omega
  refine ⟨⟨inv.free.pointers, inv.free.nonempty, inv.free.aligned, inv.free.apart,
    inv.free.sizeMap_nodup, inv.free.sizeMap, inv.free.startMap, inv.free.endMap⟩, inv.pointers,
    inv.aligned, inv.disjoint, inv.liveNotFree, ?_, ?_, ?_, inv.allocated, ?_, ?_⟩
  · intro x hx hfree
    exact unreserved x hx ((inv.cover x).2 (.inl hfree))
  · intro x hx hlive
    exact unreserved x hx ((inv.cover x).2 (.inr (.inl hlive)))
  · intro x
    have := inv.cover x
    simp only [not_noLimbo_contains, or_false] at this
    change (∃ c ∈ (⟨start, sizeInBytes⟩ :: s.reserved : List Block), c.Contains x) ↔
      s.FreeAt x ∨ s.LiveAt x ∨ _
    rw [← or_assoc, ← this]
    simp [State.ReservedAt, or_comm]
  · have := inv.balance
    simp only [noLimbo] at this
    change s.bytesReserved + sizeInBytes = s.bytesAllocated + s.freeBytes + sizeInBytes
    omega
  · intro c hc
    rcases List.mem_cons.1 hc with rfl | hc
    · exact hstart
    · exact inv.positive c hc

/-- A block is taken out of the free space. -/
theorem removeFree (inv : HeapInv g s noLimbo) (hr : Removes g s t b) : HeapInv g t b := by
  have same := hr.elsewhere
  have live : ∀ x, t.LiveAt x ↔ s.LiveAt x := by
    intro x
    rw [same]
    rfl
  have hres : ∀ x, t.ReservedAt x ↔ s.ReservedAt x := by
    intro x
    rw [same]
    rfl
  refine ⟨hr.inv, by rw [same]; exact inv.pointers, by rw [same]; exact inv.aligned,
    by rw [same]; exact inv.disjoint, ?_, ?_, ?_, ?_, by rw [same]; exact inv.allocated, ?_,
    by rw [same]; exact inv.positive⟩
  · intro x hx hfree
    exact inv.liveNotFree x ((live x).1 hx) ((hr.free x).1 hfree).1
  · intro x hx hfree
    exact ((hr.free x).1 hfree).2 hx
  · intro x hx hlive
    exact inv.liveNotFree x ((live x).1 hlive) (hr.wasFree x hx)
  · intro x
    have := inv.cover x
    have := hr.wasFree x
    simp only [not_noLimbo_contains, or_false] at *
    rw [hres, live, hr.free]
    tauto
  · have hbal := inv.balance
    have hbytes := hr.bytes
    rw [show t.bytesReserved = s.bytesReserved by rw [same],
      show t.bytesAllocated = s.bytesAllocated by rw [same]]
    simp only [noLimbo] at hbal
    omega

/-- The block `b`, a part of the limbo, becomes free. -/
theorem addFreeSpace {rest : Block} (inv : HeapInv g s limbo) (hpos : 0 < sizeInBytes)
    (haligned : Block.Aligned g ⟨start, sizeInBytes⟩)
    (hmem : ∀ x, limbo.Contains x ↔ rest.Contains x ∨ Block.Contains ⟨start, sizeInBytes⟩ x)
    (hdisj : ∀ x, rest.Contains x → ¬ Block.Contains ⟨start, sizeInBytes⟩ x)
    (hsize : limbo.sizeInBytes = rest.sizeInBytes + sizeInBytes) :
    HeapInv g (s.addFreeSpace start sizeInBytes) rest := by
  have hadds := inv.free.adds_addFreeSpace hpos haligned fun p c hc => by
    refine Block.separated (b := ⟨start, sizeInBytes⟩) (inv.free.nonempty p c hc) hpos
      fun x hx hx' => ?_
    exact inv.limboNotFree x ((hmem x).2 (.inr hx')) ⟨p, c, hc, hx⟩
  have same := hadds.elsewhere
  have live : ∀ x, (s.addFreeSpace start sizeInBytes).LiveAt x ↔ s.LiveAt x := by
    intro x
    rw [same]
    rfl
  have hres : ∀ x, (s.addFreeSpace start sizeInBytes).ReservedAt x ↔ s.ReservedAt x := by
    intro x
    rw [same]
    rfl
  refine ⟨hadds.inv, by rw [same]; exact inv.pointers, by rw [same]; exact inv.aligned,
    by rw [same]; exact inv.disjoint, ?_, ?_, ?_, ?_, by rw [same]; exact inv.allocated, ?_,
    by rw [same]; exact inv.positive⟩
  · intro x hx hfree
    rcases (hadds.free x).1 hfree with hfree | hb
    · exact inv.liveNotFree x ((live x).1 hx) hfree
    · exact inv.limboNotLive x ((hmem x).2 (.inr hb)) ((live x).1 hx)
  · intro x hx hfree
    rcases (hadds.free x).1 hfree with hfree | hb
    · exact inv.limboNotFree x ((hmem x).2 (.inl hx)) hfree
    · exact hdisj x hx hb
  · intro x hx hlive
    exact inv.limboNotLive x ((hmem x).2 (.inl hx)) ((live x).1 hlive)
  · intro x
    rw [hres, live, hadds.free, inv.cover, hmem]
    tauto
  · have hbal := inv.balance
    have hbytes := hadds.bytes
    rw [show (s.addFreeSpace start sizeInBytes).bytesReserved = s.bytesReserved by rw [same],
      show (s.addFreeSpace start sizeInBytes).bytesAllocated = s.bytesAllocated by rw [same]]
    simp only at hbytes
    omega

/-- The limbo becomes a new handle. -/
theorem makeHandle (inv : HeapInv g s b) (haligned : b.Aligned g) :
    HeapInv g { s with
      bytesAllocated := s.bytesAllocated + b.sizeInBytes
      handles := s.handles.set s.nextHandle b
      nextHandle := s.nextHandle + 1 } noLimbo := by
  have hnone : s.handles.find s.nextHandle = none :=
    Option.eq_none_iff_forall_ne_some.2 fun c hc => absurd (inv.pointers _ c hc) (lt_irrefl _)
  have cases : ∀ j c, (s.handles.set s.nextHandle b).find j = some c →
      (j = s.nextHandle ∧ c = b) ∨ (j ≠ s.nextHandle ∧ s.handles.find j = some c) := by
    intro j c
    rw [HashMap.find_set]
    split_ifs with hj <;> simp [hj, eq_comm]
  have live : ∀ x, (∃ j c, (s.handles.set s.nextHandle b).find j = some c ∧ c.Contains x) ↔
      s.LiveAt x ∨ b.Contains x := by
    intro x
    constructor
    · rintro ⟨j, c, hc, hx⟩
      rcases cases j c hc with ⟨-, rfl⟩ | ⟨-, hc⟩
      · exact .inr hx
      · exact .inl ⟨j, c, hc, hx⟩
    · rintro (⟨j, c, hc, hx⟩ | hx)
      · refine ⟨j, c, ?_, hx⟩
        rw [HashMap.find_set, if_neg, hc]
        rintro rfl
        simp [hnone] at hc
      · exact ⟨s.nextHandle, b, by simp, hx⟩
  refine ⟨⟨inv.free.pointers, inv.free.nonempty, inv.free.aligned, inv.free.apart,
    inv.free.sizeMap_nodup, inv.free.sizeMap, inv.free.startMap, inv.free.endMap⟩, ?_, ?_, ?_, ?_,
    by simp, by simp, ?_, ?_, ?_, inv.positive⟩
  · intro j c hc
    rcases cases j c hc with ⟨rfl, -⟩ | ⟨-, hc⟩
    · exact Nat.lt_succ_self _
    · exact (inv.pointers j c hc).trans (Nat.lt_succ_self _)
  · intro j c hc
    rcases cases j c hc with ⟨-, rfl⟩ | ⟨-, hc⟩
    · exact haligned
    · exact inv.aligned j c hc
  · intro j k c d x hc hd hjk hx hx'
    rcases cases j c hc with ⟨rfl, rfl⟩ | ⟨-, hc'⟩ <;>
      rcases cases k d hd with ⟨rfl, rfl⟩ | ⟨-, hd'⟩
    · exact hjk rfl
    · exact inv.limboNotLive x hx ⟨k, d, hd', hx'⟩
    · exact inv.limboNotLive x hx' ⟨j, c, hc', hx⟩
    · exact inv.disjoint j k c d x hc' hd' hjk hx hx'
  · intro x hx hfree
    rcases (live x).1 hx with hlive | hb
    · exact inv.liveNotFree x hlive hfree
    · exact inv.limboNotFree x hb hfree
  · intro x
    have := inv.cover x
    have := live x
    simp only [not_noLimbo_contains, or_false]
    change s.ReservedAt x ↔ s.FreeAt x ∨ _
    rw [inv.cover x]
    exact or_congr_right (live x).symm
  · change s.bytesAllocated + b.sizeInBytes =
      total Block.sizeInBytes (s.handles.set s.nextHandle b) (s.nextHandle + 1)
    have := total_set (w := Block.sizeInBytes) (m := s.handles) b (Nat.lt_succ_self s.nextHandle)
    rw [hnone, total_succ hnone] at this
    simp only [Option.map_none, Option.getD_none, Nat.add_zero] at this
    rw [this, inv.allocated]
  · have := inv.balance
    change s.bytesReserved = s.bytesAllocated + b.sizeInBytes + s.freeBytes + 0
    omega

theorem of_empty (inv : HeapInv g s limbo) (h : limbo.sizeInBytes = 0) : HeapInv g s noLimbo := by
  have hnone : ∀ x, ¬ limbo.Contains x := by
    simp only [Block.Contains, Block.end]
    omega
  exact ⟨inv.free, inv.pointers, inv.aligned, inv.disjoint, inv.liveNotFree, by simp, by simp,
    by simpa [hnone] using inv.cover, inv.allocated, by simpa [noLimbo, h] using inv.balance,
    inv.positive⟩

/-- A handle gives up a part of its bytes (all of them when it is destroyed). -/
theorem changeHandle (inv : HeapInv g s noLimbo) (hh : s.handles.find i = some h)
    {H : HashMap Nat Block} (hother : ∀ j, j ≠ i → H.find j = s.handles.find j)
    (haligned : ∀ c, H.find i = some c → c.Aligned g)
    (hmem : ∀ x, h.Contains x ↔ (∃ c, H.find i = some c ∧ c.Contains x) ∨ b.Contains x)
    (hdisj : ∀ c x, H.find i = some c → c.Contains x → ¬ b.Contains x)
    (hsize : h.sizeInBytes = ((H.find i).map Block.sizeInBytes).getD 0 + b.sizeInBytes) :
    HeapInv g { s with
      bytesAllocated := s.bytesAllocated - b.sizeInBytes
      handles := H } b := by
  have hi := inv.pointers i h hh
  have htotal := total_congr (w := Block.sizeInBytes) hi hother
  simp only [hh, Option.map_some, Option.getD_some] at htotal
  have old : ∀ j c x, H.find j = some c → c.Contains x → ∃ d, s.handles.find j = some d ∧
      d.Contains x := by
    intro j c x hc hx
    by_cases hj : j = i
    · subst hj
      exact ⟨h, hh, (hmem x).2 (.inl ⟨c, hc, hx⟩)⟩
    · exact ⟨c, by rw [← hother j hj, hc], hx⟩
  have live : ∀ x, s.LiveAt x ↔ (∃ j c, H.find j = some c ∧ c.Contains x) ∨ b.Contains x := by
    intro x
    constructor
    · rintro ⟨j, c, hc, hx⟩
      by_cases hj : j = i
      · subst hj
        rw [hh] at hc
        cases hc
        exact ((hmem x).1 hx).imp (fun ⟨c, hc⟩ => ⟨j, c, hc⟩) id
      · exact .inl ⟨j, c, by rw [hother j hj, hc], hx⟩
    · rintro (⟨j, c, hc, hx⟩ | hx)
      · obtain ⟨d, hd, hdx⟩ := old j c x hc hx
        exact ⟨j, d, hd, hdx⟩
      · exact ⟨i, h, hh, (hmem x).2 (.inr hx)⟩
  refine ⟨⟨inv.free.pointers, inv.free.nonempty, inv.free.aligned, inv.free.apart,
    inv.free.sizeMap_nodup, inv.free.sizeMap, inv.free.startMap, inv.free.endMap⟩, ?_, ?_, ?_, ?_,
    ?_, ?_, ?_, ?_, ?_, inv.positive⟩
  · intro j c hc
    by_cases hj : j = i
    · exact hj ▸ hi
    · exact inv.pointers j c (by rw [← hother j hj]; exact hc)
  · intro j c hc
    by_cases hj : j = i
    · subst hj
      exact haligned c hc
    · exact inv.aligned j c (by rw [← hother j hj]; exact hc)
  · intro j k c d x hc hd hjk hx hx'
    obtain ⟨c', hc', hcx⟩ := old j c x hc hx
    obtain ⟨d', hd', hdx⟩ := old k d x hd hx'
    exact inv.disjoint j k c' d' x hc' hd' hjk hcx hdx
  · intro x hx hfree
    exact inv.liveNotFree x ((live x).2 (.inl hx)) hfree
  · intro x hx hfree
    exact inv.liveNotFree x ((live x).2 (.inr hx)) hfree
  · rintro x hx ⟨j, c, hc, hcx⟩
    by_cases hj : j = i
    · subst hj
      exact hdisj c x hc hcx hx
    · obtain ⟨d, hd, hdx⟩ := old j c x hc hcx
      exact inv.disjoint j i d h x hd hh hj hdx ((hmem x).2 (.inr hx))
  · intro x
    have := inv.cover x
    simp only [not_noLimbo_contains, or_false, live x] at this
    exact this
  · change s.bytesAllocated - b.sizeInBytes = total Block.sizeInBytes H s.nextHandle
    have := inv.allocated
    omega
  · change s.bytesReserved = s.bytesAllocated - b.sizeInBytes + s.freeBytes + b.sizeInBytes
    have := inv.balance
    have := inv.allocated
    simp only [noLimbo] at *
    omega

end HeapInv

/-! ## Page accounting leaves the heap alone -/

/-- The states `s` and `t` differ in the page accounting only. -/
def State.SameButPages (s t : State) : Prop :=
  t = { s with
    pageOccupancyMap := t.pageOccupancyMap
    bytesCommitted := t.bytesCommitted
    notifications := t.notifications }

variable {g : Geometry} {s : State}

theorem State.SameButPages.trans {t u : State} (h : s.SameButPages t) (h' : t.SameButPages u) :
    s.SameButPages u := by
  unfold State.SameButPages at *
  rw [h', h]

theorem incrementPages_sameButPages (g : Geometry) (s : State) (page count : Nat) :
    s.SameButPages (s.incrementPages g page count) := by
  induction count generalizing s page with
  | zero => rfl
  | succ count ih =>
    refine State.SameButPages.trans ?_ (ih _ _)
    unfold State.incrementPage
    split <;> rfl

theorem decrementPages_sameButPages {t : State} {page count : Nat}
    (h : s.decrementPages g page count = .ok t) : s.SameButPages t := by
  induction count generalizing s page with
  | zero =>
    cases h
    rfl
  | succ count ih =>
    cases hd : s.decrementPage g page with
    | error e =>
      simp only [State.decrementPages, hd, bind, Except.bind] at h
      cases h
    | ok u =>
      simp only [State.decrementPages, hd, bind, Except.bind] at h
      refine State.SameButPages.trans ?_ (ih h)
      unfold State.decrementPage at hd
      split at hd
      · cases hd
      · split_ifs at hd <;> cases hd <;> rfl

theorem HeapInv.of_sameButPages {t : State} {limbo : Block} (inv : HeapInv g s limbo)
    (h : s.SameButPages t) : HeapInv g t limbo := by
  rw [h]
  exact ⟨⟨inv.free.pointers, inv.free.nonempty, inv.free.aligned, inv.free.apart,
    inv.free.sizeMap_nodup, inv.free.sizeMap, inv.free.startMap, inv.free.endMap⟩, inv.pointers,
    inv.aligned, inv.disjoint, inv.liveNotFree, inv.limboNotFree, inv.limboNotLive, inv.cover,
    inv.allocated, inv.balance, inv.positive⟩

/-! ## The operations -/

/-- A size `roundUp` returns: the least multiple of the granule that is large enough. -/
theorem roundUp_ok {n m : Nat} (h : roundUp g n = .ok m) :
    m < sizeTModulus ∧ g.allocationGranule ∣ m ∧ n ≤ m ∧
      ∀ k, g.allocationGranule ∣ k → n ≤ k → m ≤ k := by
  have hpos : 0 < g.allocationGranule := Nat.two_pow_pos _
  unfold roundUp at h
  split_ifs at h with hlt
  cases h
  refine ⟨?_, Nat.dvd_mul_left _ _, ?_, ?_⟩
  · have := Nat.div_mul_le_self (n + g.allocationGranule - 1) g.allocationGranule
    omega
  · have := Nat.div_add_mod' (n + g.allocationGranule - 1) g.allocationGranule
    have := Nat.mod_lt (n + g.allocationGranule - 1) hpos
    omega
  · rintro k ⟨c, rfl⟩ hn
    rw [Nat.mul_comm g.allocationGranule c]
    refine Nat.mul_le_mul_right _ ?_
    rw [← Nat.lt_succ_iff, Nat.div_lt_iff_lt_mul hpos, Nat.succ_mul, Nat.mul_comm]
    omega

theorem addFreeSpace_handles (s : State) (start sizeInBytes : Nat) (H : HashMap Nat Block) :
    { s.addFreeSpace start sizeInBytes with handles := H } =
      { s with handles := H }.addFreeSpace start sizeInBytes := by
  simp only [State.addFreeSpace, State.node]
  split <;> rfl

/-- The states `s` and `t` have the same handles and the same page accounting. -/
structure State.SamePages (s t : State) : Prop where
  handles : t.handles = s.handles
  nextHandle : t.nextHandle = s.nextHandle
  pageOccupancyMap : t.pageOccupancyMap = s.pageOccupancyMap
  bytesCommitted : t.bytesCommitted = s.bytesCommitted
  notifications : t.notifications = s.notifications

theorem State.SameElsewhere.samePages {t : State} (h : s.SameElsewhere t) : s.SamePages t := by
  rw [h]
  exact ⟨rfl, rfl, rfl, rfl, rfl⟩

theorem addFreeSpace_sameElsewhere (s : State) (start sizeInBytes : Nat) :
    s.SameElsewhere (s.addFreeSpace start sizeInBytes) := by
  unfold State.addFreeSpace
  simp only
  split <;> rfl

/-- The pages `shrink` gives back: those that lie completely in the freed bytes, and the last one
even if only its first part does. -/
def shrinkPages (g : Geometry) (s : State) (freeStart freeSize : Nat) : Except Fault State :=
  let firstCompletelyFreePage := (freeStart + g.pageSize - 1) / g.pageSize * g.pageSize
  if firstCompletelyFreePage < freeStart + freeSize then
    s.decrementPageOccupancy g firstCompletelyFreePage
      (freeSize - (firstCompletelyFreePage - freeStart))
  else .ok s

theorem shrinkPages_sameButPages {t : State} {freeStart freeSize : Nat}
    (h : shrinkPages g s freeStart freeSize = .ok t) : s.SameButPages t := by
  unfold shrinkPages at h
  simp only at h
  split_ifs at h
  · exact decrementPages_sameButPages h
  · cases h
    rfl

/-- The bytes of a handle become free, and the handles are now those of `H`. -/
def State.giveBack (s : State) (H : HashMap Nat Block) (start sizeInBytes : Nat) : State :=
  { s.addFreeSpaceFromReleasedHandle start sizeInBytes with handles := H }

theorem Except.map_eq_ok {α β ε : Type} {f : α → β} {x : Except ε α} {y : β} :
    x.map f = .ok y ↔ ∃ a, x = .ok a ∧ f a = y := by
  cases x <;> simp [Except.map]

section Outcomes

variable {g : Geometry} {s t : State} {handle newSizeInBytes : Nat} {b : Block}

theorem giveBack_eq (s : State) (f : HashMap Nat Block → HashMap Nat Block)
    (start sizeInBytes : Nat) :
    { s.addFreeSpaceFromReleasedHandle start sizeInBytes with
      handles := f (s.addFreeSpaceFromReleasedHandle start sizeInBytes).handles } =
    s.giveBack (f s.handles) start sizeInBytes := by
  have h : (s.addFreeSpaceFromReleasedHandle start sizeInBytes).handles = s.handles :=
    (addFreeSpace_sameElsewhere _ _ _).samePages.handles
  rw [State.giveBack, h]

theorem shrink_eq (hb : s.handles.find handle = some b) {size : Nat}
    (hr : roundUp g newSizeInBytes = .ok size) :
    s.shrink g handle newSizeInBytes =
      if size = b.sizeInBytes then .ok s
      else (shrinkPages g s (b.start + size) (b.sizeInBytes - size)).map fun u =>
        u.giveBack (u.handles.set handle ⟨b.start, size⟩) (b.start + size)
          (b.sizeInBytes - size) := by
  have hgive := fun u => giveBack_eq u (·.set handle ⟨b.start, size⟩) (b.start + size)
    (b.sizeInBytes - size)
  simp only at hgive
  simp only [State.shrink, hr, hb, Option.getD_some, bind, Except.bind, hgive, shrinkPages]
  split_ifs with hsame hpages
  · rfl
  · cases s.decrementPageOccupancy g _ _ <;> rfl
  · rfl

theorem release_eq (hb : s.handles.find handle = some b) :
    s.release g handle =
      if b.sizeInBytes = 0 then .ok { s with handles := s.handles.remove handle }
      else (s.decrementPageOccupancy g b.start b.sizeInBytes).map fun u =>
        u.giveBack (u.handles.remove handle) b.start b.sizeInBytes := by
  have hgive := fun u => giveBack_eq u (·.remove handle) b.start b.sizeInBytes
  simp only at hgive
  simp only [State.release, hb, Option.getD_some, bind, Except.bind, ne_eq, ite_not]
  split_ifs with hzero
  · rfl
  · cases s.decrementPageOccupancy g b.start b.sizeInBytes
    · rfl
    · exact congrArg Except.ok (hgive _)

theorem shrink_ok (hb : s.handles.find handle = some b)
    (h : s.shrink g handle newSizeInBytes = .ok t) :
    ∃ size, roundUp g newSizeInBytes = .ok size ∧ (size = b.sizeInBytes ∧ t = s ∨
      size ≠ b.sizeInBytes ∧ ∃ u,
        shrinkPages g s (b.start + size) (b.sizeInBytes - size) = .ok u ∧
        t = u.giveBack (u.handles.set handle ⟨b.start, size⟩) (b.start + size)
          (b.sizeInBytes - size)) := by
  cases hr : roundUp g newSizeInBytes with
  | error e =>
    simp only [State.shrink, hr, bind, Except.bind] at h
    cases h
  | ok size =>
    refine ⟨size, rfl, ?_⟩
    rw [shrink_eq hb hr] at h
    split_ifs at h with hsame
    · cases h
      exact .inl ⟨hsame, rfl⟩
    · obtain ⟨u, hu, rfl⟩ := Except.map_eq_ok.1 h
      exact .inr ⟨hsame, u, hu, rfl⟩

end Outcomes

namespace HeapInv

variable {g : Geometry} {s t : State}

theorem addFreshFreeSpace (inv : HeapInv g s noLimbo) {start sizeInBytes : Nat}
    (fresh : s.Fresh start sizeInBytes) (haligned : Block.Aligned g ⟨start, sizeInBytes⟩) :
    HeapInv g (s.addFreshFreeSpace start sizeInBytes) noLimbo :=
  (inv.reserve fresh).addFreeSpace fresh.2.1 haligned (by simp) (by simp) (by simp [noLimbo])

theorem granule_dvd_page (g : Geometry) : g.allocationGranule ∣ g.pageSize :=
  Nat.pow_dvd_pow 2 g.granule_le_page

/-- The new space is used from its start; what is left over becomes free. -/
theorem growForAllocation (inv : HeapInv g s noLimbo) {sizeInBytes start numberOfPages : Nat}
    (hgranule : g.allocationGranule ∣ sizeInBytes)
    (hstart : g.pageSize ∣ start) (fresh : s.Fresh start (numberOfPages * g.pageSize))
    (hsize : sizeInBytes ≤ numberOfPages * g.pageSize) :
    HeapInv g (s.growForAllocation g sizeInBytes start numberOfPages) ⟨start, sizeInBytes⟩ := by
  have hpage := granule_dvd_page g
  have hpages : g.allocationGranule ∣ numberOfPages * g.pageSize := hpage.mul_left _
  have hreserved := inv.reserve fresh
  unfold State.growForAllocation
  simp only [gt_iff_lt]
  split_ifs with hlt
  · refine hreserved.addFreeSpace (by omega)
      ⟨Nat.dvd_add (hpage.trans hstart) hgranule, Nat.dvd_sub hpages hgranule⟩ ?_ ?_ ?_ <;>
      simp only [Block.Contains, Block.end] <;> omega
  · rw [show numberOfPages * g.pageSize = sizeInBytes by omega] at hreserved ⊢
    exact hreserved

theorem growForAllocation_samePages (g : Geometry) (s : State)
    (sizeInBytes start numberOfPages : Nat) :
    s.SamePages (s.growForAllocation g sizeInBytes start numberOfPages) := by
  unfold State.growForAllocation
  simp only
  split_ifs
  · have := (addFreeSpace_sameElsewhere { s with
      bytesReserved := s.bytesReserved + numberOfPages * g.pageSize
      reserved := ⟨start, numberOfPages * g.pageSize⟩ :: s.reserved } (start + sizeInBytes)
      (numberOfPages * g.pageSize - sizeInBytes)).samePages
    exact ⟨this.handles, this.nextHandle, this.pageOccupancyMap, this.bytesCommitted,
      this.notifications⟩
  · exact ⟨rfl, rfl, rfl, rfl, rfl⟩

/-- The pages `allocate` asks for hold the rounded size, unless the sum wrapped around. -/
theorem le_requestedNumberOfPages {n : Nat} (hn : n < sizeTModulus)
    (hpos : 0 < requestedNumberOfPages g n) : n ≤ requestedNumberOfPages g n * g.pageSize := by
  have hpage : 0 < g.pageSize := Nat.two_pow_pos _
  unfold requestedNumberOfPages at *
  by_cases hwrap : n + g.pageSize - 1 < sizeTModulus
  · rw [Nat.mod_eq_of_lt hwrap]
    have := Nat.div_add_mod' (n + g.pageSize - 1) g.pageSize
    have := Nat.mod_lt (n + g.pageSize - 1) hpage
    omega
  · -- A wrapped sum is less than a page, so that no page would be asked for.
    have hlt : (n + g.pageSize - 1) % sizeTModulus < g.pageSize := by
      rcases Nat.lt_or_ge g.pageSize sizeTModulus with hp | hp
      · rw [Nat.mod_eq_sub_mod (by omega), Nat.mod_eq_of_lt (by omega)]
        omega
      · exact (Nat.mod_lt _ (Nat.two_pow_pos _)).trans_le hp
    rw [Nat.div_eq_of_lt hlt] at hpos
    exact absurd hpos (lt_irrefl 0)

/-- What `allocate` does to the heap: nothing, or it finds a block `b` and makes it a handle. -/
theorem allocate_ok (inv : HeapInv g s noLimbo) {sizeInBytes : Nat} {found : Option Nat}
    {newSpace : Option (Nat × Nat)}
    (hadmits : s.Admits g (.allocate sizeInBytes found newSpace))
    (h : s.allocate g sizeInBytes found newSpace = .ok t) :
    t = s ∨ ∃ u b, HeapInv g u b ∧ s.SamePages u ∧ b.Aligned g ∧ 0 < b.sizeInBytes ∧
      t = u.makeHandle g b.start b.sizeInBytes := by
  unfold State.allocate at h
  split_ifs at h with hzero
  · cases h
    exact .inl rfl
  cases hsize : roundUp g sizeInBytes with
  | error e =>
    rw [hsize] at h
    cases h
  | ok size =>
  obtain ⟨hfound, hnew⟩ := hadmits size hsize
  obtain ⟨hlt, hdvd, hle, -⟩ := roundUp_ok hsize
  have hpos : 0 < size := by omega
  simp only [hsize, bind, Except.bind] at h
  cases found with
  | some p =>
    obtain ⟨hres, hremoves⟩ := inv.free.removes_findAndRemoveFreeSpace hpos hdvd hfound
    have hne : (s.findAndRemoveFreeSpace g size (some p)).1 ≠ 0 := by
      obtain ⟨c, hc, hcx⟩ := (inv.cover _).2 <| .inl <|
        hremoves.wasFree (s.findAndRemoveFreeSpace g size (some p)).1 ⟨le_rfl, by
          simp only [Block.end]
          omega⟩
      have := inv.positive c hc
      have := hcx.1
      omega
    rw [if_neg hne] at h
    cases h
    exact .inr ⟨_, ⟨_, size⟩, inv.removeFree hremoves, hremoves.elsewhere.samePages,
      ⟨hres, hdvd⟩, hpos, rfl⟩
  | none =>
    simp only [State.findAndRemoveFreeSpace, if_true] at h
    rcases newSpace with _ | ⟨start, numberOfPages⟩
    · cases h
      exact .inl rfl
    · cases h
      obtain ⟨hreq, hpages, hstart, hfresh⟩ := hnew
      have henough : size ≤ numberOfPages * g.pageSize :=
        (le_requestedNumberOfPages hlt hreq).trans (Nat.mul_le_mul_right _ hpages)
      exact .inr ⟨_, ⟨start, size⟩, inv.growForAllocation hdvd hstart hfresh henough,
        growForAllocation_samePages g s size start numberOfPages,
        ⟨(granule_dvd_page g).trans hstart, hdvd⟩, hpos, rfl⟩

theorem allocate (inv : HeapInv g s noLimbo) {sizeInBytes : Nat} {found : Option Nat}
    {newSpace : Option (Nat × Nat)}
    (hadmits : s.Admits g (.allocate sizeInBytes found newSpace))
    (h : s.allocate g sizeInBytes found newSpace = .ok t) : HeapInv g t noLimbo := by
  rcases inv.allocate_ok hadmits h with rfl | ⟨u, b, hu, -, haligned, -, rfl⟩
  · exact inv
  · exact (hu.of_sameButPages (incrementPages_sameButPages g u _ _)).makeHandle haligned

theorem shrink (inv : HeapInv g s noLimbo) {handle newSizeInBytes : Nat}
    (hadmits : s.Admits g (.shrink handle newSizeInBytes))
    (h : s.shrink g handle newSizeInBytes = .ok t) : HeapInv g t noLimbo := by
  obtain ⟨b, hb, hle⟩ := hadmits
  obtain ⟨size, hr, ⟨-, rfl⟩ | ⟨hne, u, hpages, rfl⟩⟩ := shrink_ok hb h
  · exact inv
  have haligned := inv.aligned handle b hb
  obtain ⟨-, hdvd, -, hleast⟩ := roundUp_ok hr
  have hsize : size ≤ b.sizeInBytes := hleast _ haligned.2 hle
  have same := shrinkPages_sameButPages hpages
  have hb' : u.handles.find handle = some b := by rwa [same]
  have hdisj : ∀ c x, (u.handles.set handle ⟨b.start, size⟩).find handle = some c →
      c.Contains x → ¬ Block.Contains ⟨b.start + size, b.sizeInBytes - size⟩ x := by
    intro c x hc
    simp only [HashMap.find_set, if_true, Option.some.injEq] at hc
    subst hc
    simp only [Block.Contains, Block.end]
    omega
  have hchanged := (inv.of_sameButPages same).changeHandle
    (b := ⟨b.start + size, b.sizeInBytes - size⟩) hb' (by simp +contextual)
    (by simp [Block.Aligned, haligned.1, hdvd]) (by simp [Block.Contains, Block.end]; omega)
    hdisj (by simp; omega)
  rw [State.giveBack, State.addFreeSpaceFromReleasedHandle, addFreeSpace_handles]
  exact hchanged.addFreeSpace (by omega)
    ⟨Nat.dvd_add haligned.1 hdvd, Nat.dvd_sub haligned.2 hdvd⟩ (by simp) (by simp)
    (by simp [noLimbo])

theorem release (inv : HeapInv g s noLimbo) {handle : Nat} (hadmits : s.Admits g (.release handle))
    (h : s.release g handle = .ok t) : HeapInv g t noLimbo := by
  obtain ⟨b, hb⟩ := hadmits
  have hremove : ∀ u : State, u.handles.find handle = some b → HeapInv g u noLimbo →
      HeapInv g { u with
        bytesAllocated := u.bytesAllocated - b.sizeInBytes
        handles := u.handles.remove handle } b := by
    intro u hu inv
    exact inv.changeHandle hu (by simp +contextual) (by simp) (by simp) (by simp) (by simp)
  rw [release_eq hb] at h
  split_ifs at h with hzero
  · cases h
    have := (hremove s hb inv).of_empty hzero
    rwa [hzero] at this
  · obtain ⟨u, hpages, rfl⟩ := Except.map_eq_ok.1 h
    have same := decrementPages_sameButPages hpages
    have hb' : u.handles.find handle = some b := by rwa [same]
    rw [State.giveBack, State.addFreeSpaceFromReleasedHandle, addFreeSpace_handles]
    exact (hremove u hb' (inv.of_sameButPages same)).addFreeSpace (by omega)
      (inv.aligned handle b hb) (by simp) (by simp) (by simp [noLimbo])

theorem step (inv : HeapInv g s noLimbo) (h : Step g s t) : HeapInv g t noLimbo := by
  obtain ⟨op, hadmits, hexec⟩ := h
  cases op with
  | addFreshFreeSpace start sizeInBytes =>
    cases hexec
    exact inv.addFreshFreeSpace hadmits.1 hadmits.2
  | allocate sizeInBytes found newSpace => exact inv.allocate hadmits hexec
  | shrink handle newSizeInBytes => exact inv.shrink hadmits hexec
  | release handle => exact inv.release hadmits hexec

theorem of_reachable (h : Reachable g s) : HeapInv g s noLimbo := by
  induction h with
  | refl => exact initial
  | tail _ hstep ih => exact ih.step hstep

end HeapInv

/-- The handles and the free nodes tile the reserved space, and the indexes and the counters
describe them. -/
structure WellFormed (g : Geometry) (s : State) : Prop where
  handle_pointers : ∀ i h, s.handles.find i = some h → i < s.nextHandle
  node_pointers : ∀ p b, s.nodes.find p = some b → p < s.nextNode
  handles_disjoint : ∀ i j a b, s.handles.find i = some a → s.handles.find j = some b → i ≠ j →
    ∀ x, ¬ (a.Contains x ∧ b.Contains x)
  nodes_disjoint : ∀ p q a b, s.nodes.find p = some a → s.nodes.find q = some b → p ≠ q →
    ∀ x, ¬ (a.Contains x ∧ b.Contains x)
  handle_node_disjoint : ∀ i p a b, s.handles.find i = some a → s.nodes.find p = some b →
    ∀ x, ¬ (a.Contains x ∧ b.Contains x)
  handles_aligned : ∀ i h, s.handles.find i = some h → h.Aligned g
  nodes_aligned : ∀ p b, s.nodes.find p = some b → b.Aligned g
  cover : ∀ x, s.ReservedAt x ↔ s.FreeAt x ∨ s.LiveAt x
  not_adjacent : ∀ p q a b, s.nodes.find p = some a → s.nodes.find q = some b → a.end ≠ b.start
  sizeMap_nodup : s.freeSpaceSizeMap.Nodup
  sizeMap : ∀ k p, (k, p) ∈ s.freeSpaceSizeMap ↔
    ∃ b, s.nodes.find p = some b ∧ b.sizeInBytes = k
  startMap : ∀ a p, s.freeSpaceStartAddressMap.find a = some p ↔
    ∃ b, s.nodes.find p = some b ∧ b.start = a
  endMap : ∀ a p, s.freeSpaceEndAddressMap.find a = some p ↔
    ∃ b, s.nodes.find p = some b ∧ b.end = a
  bytesAllocated : s.bytesAllocated = total Block.sizeInBytes s.handles s.nextHandle
  bytesReserved : s.bytesReserved = s.bytesAllocated + total Block.sizeInBytes s.nodes s.nextNode

/-- The heap is well formed after every sequence of calls. -/
theorem wellFormed_of_reachable {g : Geometry} {s : State} (h : Reachable g s) :
    WellFormed g s := by
  have inv := HeapInv.of_reachable h
  refine ⟨inv.pointers, inv.free.pointers, ?_, ?_, ?_, inv.aligned, inv.free.aligned,
    by simpa using inv.cover, ?_, inv.free.sizeMap_nodup, inv.free.sizeMap, inv.free.startMap,
    inv.free.endMap, inv.allocated, inv.balance⟩
  · rintro i j a b ha hb hij x ⟨hx, hx'⟩
    exact inv.disjoint i j a b x ha hb hij hx hx'
  · rintro p q a b ha hb hpq x ⟨hx, hx'⟩
    have := inv.free.apart p q a b ha hb hpq
    simp only [Block.Contains, Block.end] at *
    omega
  · rintro i p a b ha hb x ⟨hx, hx'⟩
    exact inv.liveNotFree x ⟨i, a, ha, hx⟩ ⟨p, b, hb, hx'⟩
  · intro p q a b ha hb hadj
    by_cases hpq : p = q
    · subst hpq
      rw [ha] at hb
      cases hb
      have := inv.free.nonempty p a ha
      simp only [Block.end] at hadj
      omega
    · have := inv.free.apart p q a b ha hb hpq
      simp only [Block.end] at *
      have := inv.free.nonempty q b hb
      omega

/-- Granules of 32 bytes and pages of 4096 bytes. -/
def smallPages : Geometry := ⟨5, 12, by decide⟩

theorem wellFormed_after_allocate : ∃ s, Reachable smallPages s ∧ s.bytesAllocated = 128 ∧
    s.bytesReserved = 8192 ∧ WellFormed smallPages s := by
  have h : Reachable smallPages _ := (Relation.ReflTransGen.refl.tail
    ⟨.addFreshFreeSpace 4096 8192,
      ⟨⟨by decide, by decide, by simp [State.initial]⟩, by decide, by decide⟩, rfl⟩).tail
    ⟨.allocate 100 (some 0) none, fun size hsize => by
      cases hsize
      exact ⟨⟨8192, by decide, by decide, by decide⟩, trivial⟩, rfl⟩
  exact ⟨_, h, rfl, rfl, wellFormed_of_reachable h⟩

/-! ## Room for an allocation -/

/-- Free bytes in a row are in one node, because free neighbours are coalesced. -/
theorem FreeSpaceInv.exists_node (inv : FreeSpaceInv g s) {start size : Nat} (hpos : 0 < size)
    (free : ∀ x, start ≤ x → x < start + size → s.FreeAt x) :
    ∃ p b, s.nodes.find p = some b ∧ b.start ≤ start ∧ start + size ≤ b.end := by
  induction size with
  | zero => omega
  | succ size ih =>
    obtain ⟨q, c, hc, hstart, hend⟩ := free (start + size) (by omega) (by omega)
    rcases Nat.eq_zero_or_pos size with rfl | hsize
    · exact ⟨q, c, hc, hstart, hend⟩
    obtain ⟨p, b, hb, hle, hge⟩ := ih hsize fun x hx hlt => free x hx (by omega)
    by_cases hpq : p = q
    · obtain rfl := Option.some.inj (hb.symm.trans (hpq ▸ hc))
      exact ⟨p, b, hb, hle, hend⟩
    · have := inv.apart p q b c hb hc hpq
      omega

/-- An allocation goes to the system for new space only if nowhere in the reserved space there are
as many bytes in a row that no handle occupies: the free space never falls apart into pieces that
the search cannot see as one. -/
theorem found_isSome_iff {g : Geometry} {s : State} (h : Reachable g s) {size : Nat}
    (hpos : 0 < size) {found : Option Nat} (hfound : FindsLeast s.freeSpaceSizeMap size found) :
    found.isSome ↔
      ∃ start, ∀ x, start ≤ x → x < start + size → s.ReservedAt x ∧ ¬ s.LiveAt x := by
  have inv := HeapInv.of_reachable h
  constructor
  · intro hsome
    obtain ⟨p, rfl⟩ := Option.isSome_iff_exists.mp hsome
    obtain ⟨k, hmem, hk, -⟩ := hfound
    obtain ⟨b, hb, rfl⟩ := (inv.free.sizeMap _ _).1 hmem
    refine ⟨b.start, fun x hx hlt => ?_⟩
    have hfree : s.FreeAt x := ⟨p, b, hb, hx, by simp only [Block.end]; omega⟩
    exact ⟨(inv.cover x).2 (.inl hfree), fun hlive => inv.liveNotFree x hlive hfree⟩
  · rintro ⟨start, room⟩
    obtain ⟨p, b, hb, hle, hge⟩ := inv.free.exists_node hpos fun x hx hlt => by
      obtain ⟨hreserved, hlive⟩ := room x hx hlt
      simpa [hlive] using (inv.cover x).1 hreserved
    cases found with
    | some => rfl
    | none =>
      have := hfound _ ((inv.free.sizeMap b.sizeInBytes p).2 ⟨b, hb, rfl⟩)
      simp only [Block.end] at *
      omega

theorem found_isSome_fresh : ∃ s, Reachable smallPages s ∧
    ∃ start, ∀ x, start ≤ x → x < start + 128 → s.ReservedAt x ∧ ¬ s.LiveAt x := by
  have h : Reachable smallPages (State.initial.addFreshFreeSpace 4096 8192) :=
    Relation.ReflTransGen.refl.tail ⟨.addFreshFreeSpace 4096 8192,
      ⟨⟨by decide, by decide, by simp [State.initial]⟩, by decide, by decide⟩, rfl⟩
  exact ⟨_, h, (@found_isSome_iff smallPages _ h 128 (by decide) (some 0)
    ⟨8192, by decide, by decide, by decide⟩).mp rfl⟩

end Odyssey.WTF.MetaAllocator
