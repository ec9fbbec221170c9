import Mathlib.Algebra.Order.BigOperators.Group.Finset
import Odyssey.WTF.MetaAllocator.Basic

/-!
# The three indexes of the free space

`addFreeSpace` and `findAndRemoveFreeSpace` edit the nodes and the three indexes by hand, in four
and three cases. Each case has the effect of unlinking at most two nodes everywhere and linking at
most one node everywhere; the invariant is proved for these two operations only.
-/
namespace Odyssey.WTF.MetaAllocator

/-- The sum of the weights of the blocks stored under the first `n` pointers. -/
def total (w : Block → Nat) (m : HashMap Nat Block) (n : Nat) : Nat :=
  ∑ i ∈ Finset.range n, ((m.find i).map w).getD 0

section Total

variable {w : Block → Nat} {m k : HashMap Nat Block} {n i : Nat} {b : Block}

theorem total_congr (hi : i < n) (h : ∀ j, j ≠ i → m.find j = k.find j) :
    total w m n + ((k.find i).map w).getD 0 =
      total w k n + ((m.find i).map w).getD 0 := by
  have hmem : i ∈ Finset.range n := Finset.mem_range.mpr hi
  have hrest : ∑ j ∈ (Finset.range n).erase i, ((m.find j).map w).getD 0 =
      ∑ j ∈ (Finset.range n).erase i, ((k.find j).map w).getD 0 :=
    Finset.sum_congr rfl fun j hj => by rw [h j (Finset.ne_of_mem_erase hj)]
  rw [total, total, ← Finset.add_sum_erase _ _ hmem, ← Finset.add_sum_erase _ _ hmem, hrest]
  omega

theorem total_remove (hi : i < n) (hb : m.find i = some b) :
    total w (m.remove i) n + w b = total w m n := by
  have := total_congr (w := w) (m := m.remove i) (k := m) hi (by simp +contextual)
  simpa [hb] using this

theorem total_set (b : Block) (hi : i < n) :
    total w (m.set i b) n + ((m.find i).map w).getD 0 =
      total w m n + w b := by
  have := total_congr (w := w) (m := m.set i b) (k := m) hi (by simp +contextual)
  simpa using this

theorem total_succ (h : m.find n = none) : total w m (n + 1) = total w m n := by
  simp [total, Finset.sum_range_succ, h]

end Total

def Block.Aligned (g : Geometry) (b : Block) : Prop :=
  g.allocationGranule ∣ b.start ∧ g.allocationGranule ∣ b.sizeInBytes

/-- The map `m` finds each node under its `key`, and contains nothing else. -/
def Indexes (key : Block → Nat) (m : HashMap Nat Nat) (nodes : HashMap Nat Block) : Prop :=
  ∀ a p, m.find a = some p ↔ ∃ b, nodes.find p = some b ∧ key b = a

namespace Indexes

variable {key : Block → Nat} {m : HashMap Nat Nat} {nodes : HashMap Nat Block} {p : Nat} {b : Block}

theorem remove (h : Indexes key m nodes) (hb : nodes.find p = some b)
    (inj : ∀ q c, nodes.find q = some c → key c = key b → q = p) :
    Indexes key (m.remove (key b)) (nodes.remove p) := by
  intro a q
  rw [HashMap.find_remove, HashMap.find_remove]
  split_ifs with ha hq hq
  · simp
  · subst ha
    simp only [false_iff, not_exists, not_and]
    intro c hc hk
    exact hq (inj q c hc hk)
  · subst hq
    rw [h, hb]
    simp [Ne.symm ha]
  · exact h a q

theorem set (h : Indexes key m nodes) (hp : nodes.find p = none)
    (inj : ∀ q c, nodes.find q = some c → key c ≠ key b) :
    Indexes key (m.set (key b) p) (nodes.set p b) := by
  intro a q
  rw [HashMap.find_set, HashMap.find_set]
  split_ifs with ha hq hq
  · simp [ha, hq]
  · subst ha
    simp only [Option.some.injEq]
    constructor
    · rintro rfl
      exact absurd rfl hq
    · rintro ⟨c, hc, hk⟩
      exact absurd hk (inj q c hc)
  · subst hq
    rw [h, hp]
    simp [Ne.symm ha]
  · exact h a q

end Indexes

/-- Every free node appears in the three indexes under its size, its start and its end, and
nothing else does. Free nodes are aligned, not empty, disjoint and not adjacent. -/
structure FreeSpaceInv (g : Geometry) (s : State) : Prop where
  pointers : ∀ p b, s.nodes.find p = some b → p < s.nextNode
  nonempty : ∀ p b, s.nodes.find p = some b → 0 < b.sizeInBytes
  aligned : ∀ p b, s.nodes.find p = some b → b.Aligned g
  apart : ∀ p q a b, s.nodes.find p = some a → s.nodes.find q = some b → p ≠ q →
    a.end < b.start ∨ b.end < a.start
  sizeMap_nodup : s.freeSpaceSizeMap.Nodup
  sizeMap : ∀ k p, (k, p) ∈ s.freeSpaceSizeMap ↔
    ∃ b, s.nodes.find p = some b ∧ b.sizeInBytes = k
  startMap : Indexes Block.start s.freeSpaceStartAddressMap s.nodes
  endMap : Indexes Block.end s.freeSpaceEndAddressMap s.nodes

/-- Unlink the node `p` everywhere and free it. -/
def State.unlink (s : State) (p : Nat) : State :=
  { s with
    freeSpaceSizeMap := sizeMapRemove s.freeSpaceSizeMap p
    freeSpaceStartAddressMap := s.freeSpaceStartAddressMap.remove (s.node p).start
    freeSpaceEndAddressMap := s.freeSpaceEndAddressMap.remove (s.node p).end
    nodes := s.nodes.remove p }

/-- Link the block `b` as the node `p` everywhere. -/
def State.link (s : State) (p : Nat) (b : Block) : State :=
  { s with
    freeSpaceSizeMap := (b.sizeInBytes, p) :: s.freeSpaceSizeMap
    freeSpaceStartAddressMap := s.freeSpaceStartAddressMap.set b.start p
    freeSpaceEndAddressMap := s.freeSpaceEndAddressMap.set b.end p
    nodes := s.nodes.set p b
    nextNode := max s.nextNode (p + 1) }

theorem State.node_eq {s : State} {p : Nat} {b : Block} (h : s.nodes.find p = some b) :
    s.node p = b := by simp [State.node, h]

theorem State.unlink_find (s : State) (p q : Nat) :
    (s.unlink p).nodes.find q = if q = p then none else s.nodes.find q := rfl

theorem State.link_find (s : State) (p q : Nat) (b : Block) :
    (s.link p b).nodes.find q = if q = p then some b else s.nodes.find q := rfl

theorem mem_sizeMapRemove {m : List (Nat × Nat)} {p k q : Nat} :
    (k, q) ∈ sizeMapRemove m p ↔ (k, q) ∈ m ∧ q ≠ p := by simp [sizeMapRemove]

namespace FreeSpaceInv

variable {g : Geometry} {s : State} {p q : Nat} {a b : Block}

theorem start_inj (inv : FreeSpaceInv g s) (ha : s.nodes.find p = some a)
    (hb : s.nodes.find q = some b) (h : a.start = b.start) : p = q := by
  by_contra hne
  have := inv.apart p q a b ha hb hne
  simp only [Block.end] at this
  omega

theorem end_inj (inv : FreeSpaceInv g s) (ha : s.nodes.find p = some a)
    (hb : s.nodes.find q = some b) (h : a.end = b.end) : p = q := by
  by_contra hne
  have := inv.apart p q a b ha hb hne
  simp only [Block.end] at this h
  omega

theorem unlink (inv : FreeSpaceInv g s) (hb : s.nodes.find p = some b) :
    FreeSpaceInv g (s.unlink p) := by
  have hnode : s.node p = b := State.node_eq hb
  have old : ∀ q c, (s.unlink p).nodes.find q = some c → s.nodes.find q = some c := by
    intro q c
    rw [State.unlink_find]
    split_ifs <;> simp
  refine ⟨fun q c hq => inv.pointers q c (old q c hq), fun q c hq => inv.nonempty q c (old q c hq),
    fun q c hq => inv.aligned q c (old q c hq),
    fun q r c d hq hr hne => inv.apart q r c d (old q c hq) (old r d hr) hne,
    inv.sizeMap_nodup.filter _, ?_, ?_, ?_⟩
  · intro k q
    rw [State.unlink_find]
    change (k, q) ∈ sizeMapRemove s.freeSpaceSizeMap p ↔ _
    rw [mem_sizeMapRemove, inv.sizeMap]
    by_cases hq : q = p <;> simp [hq]
  · simpa [State.unlink, hnode] using
      inv.startMap.remove hb fun q c hc hk => inv.start_inj hc hb hk
  · simpa [State.unlink, hnode] using
      inv.endMap.remove hb fun q c hc hk => inv.end_inj hc hb hk

theorem link (inv : FreeSpaceInv g s) (hp : s.nodes.find p = none) (hpos : 0 < b.sizeInBytes)
    (haligned : b.Aligned g)
    (hapart : ∀ q a, s.nodes.find q = some a → a.end < b.start ∨ b.end < a.start) :
    FreeSpaceInv g (s.link p b) := by
  have cases : ∀ q c, (s.link p b).nodes.find q = some c →
      (q = p ∧ c = b) ∨ (q ≠ p ∧ s.nodes.find q = some c) := by
    intro q c
    rw [State.link_find]
    split_ifs with h <;> simp [h, eq_comm]
  refine ⟨?_, ?_, ?_, ?_, ?_, ?_, ?_, ?_⟩
  · intro q c hq
    rcases cases q c hq with ⟨rfl, -⟩ | ⟨-, h⟩
    · exact (Nat.lt_succ_self q).trans_le (le_max_right _ _)
    · exact (inv.pointers q c h).trans_le (le_max_left _ _)
  · intro q c hq
    rcases cases q c hq with ⟨-, rfl⟩ | ⟨-, h⟩
    · exact hpos
    · exact inv.nonempty q c h
  · intro q c hq
    rcases cases q c hq with ⟨-, rfl⟩ | ⟨-, h⟩
    · exact haligned
    · exact inv.aligned q c h
  · intro q r c d hq hr hne
    rcases cases q c hq with ⟨rfl, rfl⟩ | ⟨-, hc⟩ <;>
      rcases cases r d hr with ⟨rfl, rfl⟩ | ⟨-, hd⟩
    · exact absurd rfl hne
    · exact (hapart r d hd).symm
    · exact hapart q c hc
    · exact inv.apart q r c d hc hd hne
  · refine List.nodup_cons.2 ⟨fun h => ?_, inv.sizeMap_nodup⟩
    obtain ⟨c, hc, -⟩ := (inv.sizeMap _ _).1 h
    simp [hp] at hc
  · intro k q
    rw [State.link_find]
    change (k, q) ∈ (b.sizeInBytes, p) :: s.freeSpaceSizeMap ↔ _
    rw [List.mem_cons, inv.sizeMap]
    by_cases hq : q = p
    · simp [hq, hp, eq_comm]
    · simp [hq]
  · refine inv.startMap.set hp fun q c hc hk => ?_
    have := hapart q c hc
    simp only [Block.end] at this
    omega
  · refine inv.endMap.set hp fun q c hc hk => ?_
    have := hapart q c hc
    simp only [Block.end] at this hk
    omega

end FreeSpaceInv

/-! ## Effects on the free bytes -/

/-- The byte `x` belongs to a free node. -/
def State.FreeAt (s : State) (x : Nat) : Prop := ∃ p b, s.nodes.find p = some b ∧ b.Contains x

def State.freeBytes (s : State) : Nat := total Block.sizeInBytes s.nodes s.nextNode

/-- `t` differs from `s` in the free nodes and their indexes only. -/
def State.SameElsewhere (s t : State) : Prop :=
  t = { s with
    nodes := t.nodes
    nextNode := t.nextNode
    freeSpaceSizeMap := t.freeSpaceSizeMap
    freeSpaceStartAddressMap := t.freeSpaceStartAddressMap
    freeSpaceEndAddressMap := t.freeSpaceEndAddressMap }

theorem State.SameElsewhere.trans {s t u : State} (h : s.SameElsewhere t) (k : t.SameElsewhere u) :
    s.SameElsewhere u := by
  unfold SameElsewhere at *
  rw [k, h]

/-- `t` is `s` with the block `b` added to the free space. -/
structure Adds (g : Geometry) (s t : State) (b : Block) : Prop where
  inv : FreeSpaceInv g t
  free : ∀ x, t.FreeAt x ↔ s.FreeAt x ∨ b.Contains x
  bytes : t.freeBytes = s.freeBytes + b.sizeInBytes
  elsewhere : s.SameElsewhere t

/-- `t` is `s` with the block `b` taken out of the free space. -/
structure Removes (g : Geometry) (s t : State) (b : Block) : Prop where
  inv : FreeSpaceInv g t
  wasFree : ∀ x, b.Contains x → s.FreeAt x
  free : ∀ x, t.FreeAt x ↔ s.FreeAt x ∧ ¬ b.Contains x
  bytes : t.freeBytes + b.sizeInBytes = s.freeBytes
  elsewhere : s.SameElsewhere t

section

variable {g : Geometry} {s : State} {p q start sizeInBytes : Nat} {a b : Block}

theorem FreeSpaceInv.removes_unlink (inv : FreeSpaceInv g s) (hb : s.nodes.find p = some b) :
    Removes g s (s.unlink p) b := by
  refine ⟨inv.unlink hb, fun x hx => ⟨p, b, hb, hx⟩, fun x => ⟨?_, ?_⟩, ?_, rfl⟩
  · rintro ⟨q, c, hc, hx⟩
    rw [State.unlink_find] at hc
    split_ifs at hc with hq
    refine ⟨⟨q, c, hc, hx⟩, fun hbx => ?_⟩
    have := inv.apart q p c b hc hb hq
    simp only [Block.Contains, Block.end] at *
    omega
  · rintro ⟨⟨q, c, hc, hx⟩, hbx⟩
    refine ⟨q, c, ?_, hx⟩
    rw [State.unlink_find, if_neg]
    · exact hc
    · rintro rfl
      rw [hb] at hc
      cases hc
      exact hbx hx
  · exact total_remove (inv.pointers p b hb) hb

theorem FreeSpaceInv.adds_link (inv : FreeSpaceInv g s) (hp : s.nodes.find p = none)
    (hpos : 0 < b.sizeInBytes) (haligned : b.Aligned g)
    (hapart : ∀ q a, s.nodes.find q = some a → a.end < b.start ∨ b.end < a.start)
    (hnext : p ≤ s.nextNode) : Adds g s (s.link p b) b := by
  refine ⟨inv.link hp hpos haligned hapart, fun x => ⟨?_, ?_⟩, ?_, rfl⟩
  · rintro ⟨q, c, hc, hx⟩
    rw [State.link_find] at hc
    split_ifs at hc with hq
    · cases hc
      exact .inr hx
    · exact .inl ⟨q, c, hc, hx⟩
  · rintro (⟨q, c, hc, hx⟩ | hx)
    · refine ⟨q, c, ?_, hx⟩
      rw [State.link_find, if_neg]
      · exact hc
      · rintro rfl
        simp [hp] at hc
    · exact ⟨p, b, by simp [State.link_find], hx⟩
  · change total Block.sizeInBytes (s.nodes.set p b) (max s.nextNode (p + 1)) =
      total Block.sizeInBytes s.nodes s.nextNode + b.sizeInBytes
    have hset := total_set (w := Block.sizeInBytes) (m := s.nodes) b
      (show p < max s.nextNode (p + 1) from (Nat.lt_succ_self p).trans_le (le_max_right _ _))
    rw [hp] at hset
    rcases hnext.lt_or_eq with h | rfl
    · rw [max_eq_left h] at *
      simpa using hset
    · rw [max_eq_right (Nat.le_succ _)] at *
      simpa [total_succ hp] using hset

/-! ## A node that keeps one end -/

theorem FreeSpaceInv.startMap_eq_none (inv : FreeSpaceInv g s) {x : Nat} :
    s.freeSpaceStartAddressMap.find x = none ↔
      ∀ p b, s.nodes.find p = some b → b.start ≠ x := by
  rw [Option.eq_none_iff_forall_ne_some]
  constructor
  · intro h p b hb heq
    exact h p ((inv.startMap x p).2 ⟨b, hb, heq⟩)
  · intro h p hp
    obtain ⟨b, hb, heq⟩ := (inv.startMap x p).1 hp
    exact h p b hb heq

theorem FreeSpaceInv.endMap_eq_none (inv : FreeSpaceInv g s) {x : Nat} :
    s.freeSpaceEndAddressMap.find x = none ↔ ∀ p b, s.nodes.find p = some b → b.end ≠ x := by
  rw [Option.eq_none_iff_forall_ne_some]
  constructor
  · intro h p b hb heq
    exact h p ((inv.endMap x p).2 ⟨b, hb, heq⟩)
  · intro h p hp
    obtain ⟨b, hb, heq⟩ := (inv.endMap x p).1 hp
    exact h p b hb heq

theorem FreeSpaceInv.relink_start (inv : FreeSpaceInv g s) (ha : s.nodes.find p = some a)
    (hend : b.end = a.end) (hfree : s.freeSpaceStartAddressMap.find b.start = none) :
    { s with
      freeSpaceSizeMap := (b.sizeInBytes, p) :: sizeMapRemove s.freeSpaceSizeMap p
      freeSpaceStartAddressMap := (s.freeSpaceStartAddressMap.remove a.start).add b.start p
      nodes := s.nodes.set p b } = (s.unlink p).link p b := by
  have hp : s.node p = a := State.node_eq ha
  have hold : s.freeSpaceEndAddressMap.find a.end = some p := (inv.endMap _ _).2 ⟨a, ha, rfl⟩
  rw [HashMap.add_of_find_none (by simp [hfree])]
  refine State.ext ?_ (max_eq_left (inv.pointers p a ha)).symm rfl ?_ ?_
    rfl rfl rfl rfl rfl rfl rfl rfl <;> apply HashMap.ext <;> funext x <;>
    simp only [State.link, State.unlink, HashMap.find_set, HashMap.find_remove, hp, hend]
  · split_ifs <;> rfl
  · split_ifs <;> simp_all

theorem FreeSpaceInv.relink_end (inv : FreeSpaceInv g s) (ha : s.nodes.find p = some a)
    (hstart : b.start = a.start) (hfree : s.freeSpaceEndAddressMap.find b.end = none) :
    { s with
      freeSpaceSizeMap := (b.sizeInBytes, p) :: sizeMapRemove s.freeSpaceSizeMap p
      freeSpaceEndAddressMap := (s.freeSpaceEndAddressMap.remove a.end).add b.end p
      nodes := s.nodes.set p b } = (s.unlink p).link p b := by
  have hp : s.node p = a := State.node_eq ha
  have hold : s.freeSpaceStartAddressMap.find a.start = some p := (inv.startMap _ _).2 ⟨a, ha, rfl⟩
  rw [HashMap.add_of_find_none (by simp [hfree])]
  refine State.ext ?_ (max_eq_left (inv.pointers p a ha)).symm rfl ?_ ?_
    rfl rfl rfl rfl rfl rfl rfl rfl <;> apply HashMap.ext <;> funext x <;>
    simp only [State.link, State.unlink, HashMap.find_set, HashMap.find_remove, hp, hstart]
  · split_ifs <;> rfl
  · split_ifs <;> simp_all

/-! ## The four cases of `addFreeSpace` -/

theorem addFreeSpace_eq_both (inv : FreeSpaceInv g s) (ha : s.nodes.find p = some a)
    (hb : s.nodes.find q = some b) (hleft : a.end = start) (hright : b.start = start + sizeInBytes)
    (hpq : p ≠ q) :
    s.addFreeSpace start sizeInBytes = ((s.unlink p).unlink q).link p
      ⟨a.start, a.sizeInBytes + (sizeInBytes + b.sizeInBytes)⟩ := by
  have hend : s.freeSpaceEndAddressMap.find start = some p := (inv.endMap _ _).2 ⟨a, ha, hleft⟩
  have hstart : s.freeSpaceStartAddressMap.find (start + sizeInBytes) = some q :=
    (inv.startMap _ _).2 ⟨b, hb, hright⟩
  have hold : s.freeSpaceStartAddressMap.find a.start = some p := (inv.startMap _ _).2 ⟨a, ha, rfl⟩
  have hp : s.node p = a := State.node_eq ha
  have hq : s.node q = b := State.node_eq hb
  have hq' : (s.unlink p).node q = b :=
    State.node_eq (by rw [State.unlink_find, if_neg hpq.symm, hb])
  have hstarts : a.start ≠ b.start := fun h => hpq (inv.start_inj ha hb h)
  unfold State.addFreeSpace
  simp only [hend, hstart, hp, hq]
  rw [HashMap.add_of_find_none (by simp)]
  refine State.ext ?_ (max_eq_left (inv.pointers p a ha)).symm rfl ?_ ?_
    rfl rfl rfl rfl rfl rfl rfl rfl <;> apply HashMap.ext <;> funext x
  · simp only [State.link, State.unlink, HashMap.find_set, HashMap.find_remove]
    split_ifs <;> rfl
  · change _ = if x = a.start then some p else (((s.unlink p).freeSpaceStartAddressMap.remove
      ((s.unlink p).node q).start)).find x
    rw [hq']
    simp only [State.unlink, hp, HashMap.find_remove, hright]
    split_ifs <;> simp_all
  · change _ = if x = a.start + (a.sizeInBytes + (sizeInBytes + b.sizeInBytes)) then some p else
      (((s.unlink p).freeSpaceEndAddressMap.remove ((s.unlink p).node q).end)).find x
    rw [hq']
    simp only [State.unlink, hp, HashMap.find_remove, HashMap.find_set, Block.end] at *
    split_ifs <;> first | rfl | omega

theorem addFreeSpace_eq_left (inv : FreeSpaceInv g s) (ha : s.nodes.find p = some a)
    (hleft : a.end = start)
    (hright : s.freeSpaceStartAddressMap.find (start + sizeInBytes) = none)
    (hfree : s.freeSpaceEndAddressMap.find (start + sizeInBytes) = none) :
    s.addFreeSpace start sizeInBytes =
      (s.unlink p).link p ⟨a.start, a.sizeInBytes + sizeInBytes⟩ := by
  have hend : s.freeSpaceEndAddressMap.find start = some p := (inv.endMap _ _).2 ⟨a, ha, hleft⟩
  have hnew : start + sizeInBytes = Block.end ⟨a.start, a.sizeInBytes + sizeInBytes⟩ := by
    simp only [Block.end] at *
    omega
  unfold State.addFreeSpace
  simp only [hend, hright, State.node_eq ha]
  rw [hnew] at hfree ⊢
  exact inv.relink_end ha rfl hfree

theorem addFreeSpace_eq_right (inv : FreeSpaceInv g s) (hb : s.nodes.find q = some b)
    (hleft : s.freeSpaceEndAddressMap.find start = none)
    (hright : b.start = start + sizeInBytes)
    (hfree : s.freeSpaceStartAddressMap.find start = none) :
    s.addFreeSpace start sizeInBytes =
      (s.unlink q).link q ⟨start, b.sizeInBytes + sizeInBytes⟩ := by
  have hstart : s.freeSpaceStartAddressMap.find (start + sizeInBytes) = some q :=
    (inv.startMap _ _).2 ⟨b, hb, hright⟩
  unfold State.addFreeSpace
  simp only [hstart, hleft, State.node_eq hb]
  rw [← hright, inv.relink_start hb (by simp only [Block.end]; omega) hfree]

theorem addFreeSpace_eq_none (hleft : s.freeSpaceEndAddressMap.find start = none)
    (hright : s.freeSpaceStartAddressMap.find (start + sizeInBytes) = none)
    (hstart : s.freeSpaceStartAddressMap.find start = none)
    (hend : s.freeSpaceEndAddressMap.find (start + sizeInBytes) = none) :
    s.addFreeSpace start sizeInBytes = s.link s.nextNode ⟨start, sizeInBytes⟩ := by
  unfold State.addFreeSpace
  simp only [hleft, hright]
  rw [HashMap.add_of_find_none hstart, HashMap.add_of_find_none hend]
  simp [State.link, Block.end]

/-- Taking out `a` and adding `a` together with `b` adds `b`. -/
theorem Removes.adds {t u : State} {c : Block} (hr : Removes g s t a) (ha : Adds g t u c)
    (hmem : ∀ x, c.Contains x ↔ a.Contains x ∨ b.Contains x)
    (hsize : c.sizeInBytes = a.sizeInBytes + b.sizeInBytes) : Adds g s u b := by
  refine ⟨ha.inv, fun x => ?_, ?_, hr.elsewhere.trans ha.elsewhere⟩
  · rw [ha.free, hr.free, hmem]
    have := hr.wasFree x
    tauto
  · have := ha.bytes
    have := hr.bytes
    omega

/-- Taking out `a` and putting a part of it back takes out the rest. -/
theorem Removes.restores {t u : State} {c : Block} (hr : Removes g s t a) (ha : Adds g t u c)
    (hmem : ∀ x, a.Contains x ↔ c.Contains x ∨ b.Contains x)
    (hdisj : ∀ x, c.Contains x → ¬ b.Contains x)
    (hsize : a.sizeInBytes = c.sizeInBytes + b.sizeInBytes) : Removes g s u b := by
  refine ⟨ha.inv, fun x hx => hr.wasFree x ((hmem x).2 (.inr hx)), fun x => ?_, ?_,
    hr.elsewhere.trans ha.elsewhere⟩
  · rw [ha.free, hr.free]
    have := hr.wasFree x
    have := hmem x
    have := hdisj x
    tauto
  · have := ha.bytes
    have := hr.bytes
    omega

/-- Another block takes the place of a node. -/
theorem FreeSpaceInv.adds_relink (inv : FreeSpaceInv g s) (ha : s.nodes.find p = some a)
    {c : Block} (hpos : 0 < c.sizeInBytes) (haligned : c.Aligned g)
    (hapart : ∀ q d, s.nodes.find q = some d → q ≠ p → d.end < c.start ∨ c.end < d.start) :
    Adds g (s.unlink p) ((s.unlink p).link p c) c := by
  refine (inv.removes_unlink ha).inv.adds_link (by simp [State.unlink_find]) hpos haligned
    (fun q d hd => ?_) (inv.pointers p a ha).le
  rw [State.unlink_find] at hd
  split_ifs at hd with hq
  exact hapart q d hd hq

/-- `addFreeSpace` adds exactly the given bytes, whichever neighbours are free. -/
theorem FreeSpaceInv.adds_addFreeSpace (inv : FreeSpaceInv g s) (hpos : 0 < sizeInBytes)
    (haligned : Block.Aligned g ⟨start, sizeInBytes⟩)
    (hdisj : ∀ p b, s.nodes.find p = some b → b.end ≤ start ∨ start + sizeInBytes ≤ b.start) :
    Adds g s (s.addFreeSpace start sizeInBytes) ⟨start, sizeInBytes⟩ := by
  obtain ⟨hstart, hsize⟩ := haligned
  -- No free node starts where the new block starts, or ends where it ends.
  have hnoStart : s.freeSpaceStartAddressMap.find start = none := by
    refine inv.startMap_eq_none.2 fun p b hb heq => ?_
    have := hdisj p b hb
    have := inv.nonempty p b hb
    simp only [Block.end] at *
    omega
  have hnoEnd : s.freeSpaceEndAddressMap.find (start + sizeInBytes) = none := by
    refine inv.endMap_eq_none.2 fun p b hb heq => ?_
    have := hdisj p b hb
    have := inv.nonempty p b hb
    simp only [Block.end] at *
    omega
  cases hl : s.freeSpaceEndAddressMap.find start with
  | none =>
    have hleft := inv.endMap_eq_none.1 hl
    cases hr : s.freeSpaceStartAddressMap.find (start + sizeInBytes) with
    | none =>
      rw [addFreeSpace_eq_none hl hr hnoStart hnoEnd]
      refine inv.adds_link ?_ hpos ⟨hstart, hsize⟩ (fun q a ha => ?_) le_rfl
      · refine Option.eq_none_iff_forall_ne_some.2 fun b hb => ?_
        exact absurd (inv.pointers _ b hb) (lt_irrefl _)
      · have := hdisj q a ha
        have := hleft q a ha
        have := inv.startMap_eq_none.1 hr q a ha
        simp only [Block.end] at *
        omega
    | some q =>
      obtain ⟨b, hb, hright⟩ := (inv.startMap _ _).1 hr
      rw [addFreeSpace_eq_right inv hb hl hright hnoStart]
      refine (inv.removes_unlink hb).adds (inv.adds_relink hb (by simp; omega)
        ⟨hstart, Nat.dvd_add (inv.aligned q b hb).2 hsize⟩ fun r c hc hrq => ?_) (fun x => ?_) rfl
      · have := inv.apart r q c b hc hb hrq
        have := hdisj r c hc
        have := hleft r c hc
        simp only [Block.end] at *
        omega
      · simp only [Block.Contains, Block.end]
        omega
  | some p =>
    obtain ⟨a, ha, hleft⟩ := (inv.endMap _ _).1 hl
    have removed := inv.removes_unlink ha
    have halign := inv.aligned p a ha
    cases hr : s.freeSpaceStartAddressMap.find (start + sizeInBytes) with
    | none =>
      rw [addFreeSpace_eq_left inv ha hleft hr hnoEnd]
      refine removed.adds (inv.adds_relink ha (by simp; omega)
        ⟨halign.1, Nat.dvd_add halign.2 hsize⟩ fun r c hc hrp => ?_) (fun x => ?_) rfl
      · have := inv.apart r p c a hc ha hrp
        have := hdisj r c hc
        have := inv.startMap_eq_none.1 hr r c hc
        simp only [Block.end] at *
        omega
      · simp only [Block.Contains, Block.end] at *
        omega
    | some q =>
      obtain ⟨b, hb, hright⟩ := (inv.startMap _ _).1 hr
      have hpq : p ≠ q := by
        rintro rfl
        rw [ha] at hb
        cases hb
        simp only [Block.end] at *
        omega
      rw [addFreeSpace_eq_both inv ha hb hleft hright hpq]
      have hb' : (s.unlink p).nodes.find q = some b := by
        rw [State.unlink_find, if_neg hpq.symm, hb]
      have removed' := removed.inv.removes_unlink hb'
      have added := removed'.inv.adds_link (p := p)
        (b := ⟨a.start, a.sizeInBytes + (sizeInBytes + b.sizeInBytes)⟩)
        (by simp [State.unlink_find]) (by simp; omega)
        ⟨halign.1, Nat.dvd_add halign.2 (Nat.dvd_add hsize (inv.aligned q b hb).2)⟩
        (fun r c hc => ?_) (inv.pointers p a ha).le
      · refine removed.adds (removed'.adds (b := ⟨a.start, a.sizeInBytes + sizeInBytes⟩) added
          (fun x => ?_) (by simp; omega)) (fun x => ?_) rfl <;>
        · simp only [Block.Contains, Block.end] at *
          omega
      · rw [State.unlink_find, State.unlink_find] at hc
        split_ifs at hc with hrq hrp
        have := inv.apart r p c a hc ha hrp
        have := inv.apart r q c b hc hb hrq
        have := hdisj r c hc
        simp only [Block.end] at *
        omega

/-! ## The three cases of `findAndRemoveFreeSpace` -/

theorem findAndRemoveFreeSpace_eq_fit (ha : s.nodes.find p = some a)
    (hfit : a.sizeInBytes = sizeInBytes) :
    s.findAndRemoveFreeSpace g sizeInBytes (some p) = (a.start, s.unlink p) := by
  have hp : s.node p = a := State.node_eq ha
  simp only [State.findAndRemoveFreeSpace, State.unlink, hp, hfit, if_true]

/-- No free node starts or ends inside a free node. -/
theorem FreeSpaceInv.free_inside (inv : FreeSpaceInv g s) (ha : s.nodes.find p = some a) {x : Nat}
    (hstart : a.start < x) (hend : x < a.end) :
    s.freeSpaceStartAddressMap.find x = none ∧ s.freeSpaceEndAddressMap.find x = none := by
  have hne {q : Nat} {c : Block} (hc : s.nodes.find q = some c) : c.start ≠ x ∧ c.end ≠ x := by
    by_cases hqp : q = p
    · subst hqp
      rw [ha] at hc
      cases hc
      exact ⟨hstart.ne, hend.ne'⟩
    · have := inv.apart q p c a hc ha hqp
      simp only [Block.end] at *
      omega
  exact ⟨inv.startMap_eq_none.2 fun _ _ hc => (hne hc).1,
    inv.endMap_eq_none.2 fun _ _ hc => (hne hc).2⟩

/-- Putting back a part `c` of the node `p` at one of its ends. -/
theorem FreeSpaceInv.removes_carve (inv : FreeSpaceInv g s) (ha : s.nodes.find p = some a)
    {c : Block} (hpos : 0 < c.sizeInBytes) (haligned : c.Aligned g)
    (hmem : ∀ x, a.Contains x ↔ c.Contains x ∨ b.Contains x)
    (hdisj : ∀ x, c.Contains x → ¬ b.Contains x)
    (hsize : a.sizeInBytes = c.sizeInBytes + b.sizeInBytes)
    (hstart : a.start ≤ c.start) (hend : c.end ≤ a.end) :
    Removes g s ((s.unlink p).link p c) b := by
  refine (inv.removes_unlink ha).restores (inv.adds_relink ha hpos haligned fun r d hd hrp => ?_)
    hmem hdisj hsize
  have := inv.apart r p d a hd ha hrp
  omega

/-- `findAndRemoveFreeSpace` takes the bytes it returns, and only these, out of the free space. -/
theorem FreeSpaceInv.removes_findAndRemoveFreeSpace (inv : FreeSpaceInv g s)
    (hsize : 0 < sizeInBytes) (haligned : g.allocationGranule ∣ sizeInBytes)
    (hfound : FindsLeast s.freeSpaceSizeMap sizeInBytes (some p)) :
    let result := s.findAndRemoveFreeSpace g sizeInBytes (some p)
    g.allocationGranule ∣ result.1 ∧ Removes g s result.2 ⟨result.1, sizeInBytes⟩ := by
  obtain ⟨k, hmem, hk, -⟩ := hfound
  obtain ⟨a, ha, rfl⟩ := (inv.sizeMap _ _).1 hmem
  have hp : s.node p = a := State.node_eq ha
  obtain ⟨hastart, hasize⟩ := inv.aligned p a ha
  have hrest : g.allocationGranule ∣ a.sizeInBytes - sizeInBytes := Nat.dvd_sub hasize haligned
  rcases hk.eq_or_lt with rfl | hlt
  · rw [findAndRemoveFreeSpace_eq_fit ha rfl]
    exact ⟨hastart, inv.removes_unlink ha⟩
  · unfold State.findAndRemoveFreeSpace
    simp only [hp, if_neg hlt.ne']
    split_ifs with hside
    · refine ⟨hastart, ?_⟩
      dsimp only
      have hfree := (inv.free_inside ha (x := a.start + sizeInBytes) (by omega)
        (by simp only [Block.end]; omega)).1
      rw [inv.relink_start ha (b := ⟨_, _⟩) (by simp only [Block.end]; omega) hfree]
      refine inv.removes_carve ha (by simp; omega) ⟨Nat.dvd_add hastart haligned, hrest⟩
        ?_ ?_ ?_ ?_ ?_ <;> simp only [Block.Contains, Block.end] <;> intros <;> omega
    · refine ⟨?_, ?_⟩
      · dsimp only
        rw [Nat.add_sub_assoc hlt.le]
        exact Nat.dvd_add hastart hrest
      · dsimp only
        have hfree := (inv.free_inside ha (x := a.start + (a.sizeInBytes - sizeInBytes))
          (by omega) (by simp only [Block.end]; omega)).2
        have hrelink := inv.relink_end ha (b := ⟨a.start, a.sizeInBytes - sizeInBytes⟩) rfl hfree
        simp only [Block.end] at hrelink
        rw [Nat.add_sub_assoc hlt.le, Block.end, hrelink]
        refine inv.removes_carve ha (by simp; omega) ⟨hastart, hrest⟩ ?_ ?_ ?_ ?_ ?_ <;>
          simp only [Block.Contains, Block.end] <;> intros <;> omega

end

end Odyssey.WTF.MetaAllocator
