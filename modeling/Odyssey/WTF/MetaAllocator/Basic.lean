import Mathlib.Algebra.BigOperators.Group.Finset.Basic
import Mathlib.Logic.Relation
import Odyssey.WTF.HashMap

/-!
# The meta-allocator

`MetaAllocator` hands out granule-aligned pieces of the address space it was given. Its free
space is a set of nodes indexed three times: by size in a red-black tree, and by start and by end
address in two hash maps. A fourth map counts, for each page, the handles that occupy it.

Addresses are natural numbers, and `nodes` and `handles` stand for the objects reachable through
`FreeSpaceNode*` and `MetaAllocatorHandle*`. The answer of
`m_freeSpaceSizeMap.findLeastGreaterThanOrEqual` (which node, when several have the same size) and
of the virtual `allocateNewSpace` are inputs of a step.
-/
namespace Odyssey.WTF.MetaAllocator

/-- The number of values of the type `size_t`. -/
def sizeTModulus : Nat := 2 ^ 64

/-- The two constructor arguments, which the constructor requires to be powers of two. Both
executable allocators use a granule of 32 bytes and pages of the system's size. -/
structure Geometry where
  logAllocationGranule : Nat
  logPageSize : Nat
  granule_le_page : logAllocationGranule ≤ logPageSize

def Geometry.allocationGranule (g : Geometry) : Nat := 2 ^ g.logAllocationGranule

def Geometry.pageSize (g : Geometry) : Nat := 2 ^ g.logPageSize

/-- The bytes `[start, start + sizeInBytes)`: a `FreeSpaceNode` or a `MetaAllocatorHandle`. -/
structure Block where
  start : Nat
  sizeInBytes : Nat
deriving DecidableEq, Repr

def Block.end (b : Block) : Nat := b.start + b.sizeInBytes

def Block.Contains (b : Block) (x : Nat) : Prop := b.start ≤ x ∧ x < b.end

inductive PageEvent where
  | needPage (page : Nat)
  | pageIsFree (page : Nat)
deriving DecidableEq, Repr

/-- The members of `MetaAllocator`, the objects it points to, the handles that are alive and, to
state what the allocator promises, the calls of the two page notifications (newest first) and the
ranges it was given. -/
@[ext] structure State where
  nodes : HashMap Nat Block
  nextNode : Nat
  freeSpaceSizeMap : List (Nat × Nat)
  freeSpaceStartAddressMap : HashMap Nat Nat
  freeSpaceEndAddressMap : HashMap Nat Nat
  pageOccupancyMap : HashMap Nat Nat
  bytesAllocated : Nat
  bytesReserved : Nat
  bytesCommitted : Nat
  handles : HashMap Nat Block
  nextHandle : Nat
  notifications : List PageEvent
  reserved : List Block

def State.initial : State where
  nodes := .empty
  nextNode := 0
  freeSpaceSizeMap := []
  freeSpaceStartAddressMap := .empty
  freeSpaceEndAddressMap := .empty
  pageOccupancyMap := .empty
  bytesAllocated := 0
  bytesReserved := 0
  bytesCommitted := 0
  handles := .empty
  nextHandle := 0
  notifications := []
  reserved := []

/-- Why an operation has no resulting state: a call of `CRASH()`, or
`decrementPageOccupancy` reading the entry of a page that has none. -/
inductive Fault where
  | crash
  | missingPage
deriving DecidableEq, Repr

/-! ## The size map -/

/-- `RedBlackTree::remove` unlinks the node it is given, whatever its key is now. -/
def sizeMapRemove (m : List (Nat × Nat)) (node : Nat) : List (Nat × Nat) :=
  m.filter (fun entry => entry.2 ≠ node)

/-- The answers `RedBlackTree::findLeastGreaterThanOrEqual` may give. Nodes of equal size are
found in an order that depends on the shape of the tree. -/
def FindsLeast (m : List (Nat × Nat)) (key : Nat) : Option Nat → Prop
  | none => ∀ entry ∈ m, entry.1 < key
  | some node => ∃ k, (k, node) ∈ m ∧ key ≤ k ∧ ∀ entry ∈ m, key ≤ entry.1 → k ≤ entry.1

/-! ## Free space -/

/-- The node behind a pointer. -/
def State.node (s : State) (p : Nat) : Block := (s.nodes.find p).getD ⟨0, 0⟩

/-- `addFreeSpace`: coalesce with the free neighbours on the left and on the right. -/
def State.addFreeSpace (s : State) (start sizeInBytes : Nat) : State :=
  let endAddress := start + sizeInBytes
  match s.freeSpaceEndAddressMap.find start, s.freeSpaceStartAddressMap.find endAddress with
  | some leftNode, some rightNode =>
    let left := s.node leftNode
    let right := s.node rightNode
    let merged : Block := ⟨left.start, left.sizeInBytes + (sizeInBytes + right.sizeInBytes)⟩
    { s with
      freeSpaceSizeMap := (merged.sizeInBytes, leftNode) ::
        sizeMapRemove (sizeMapRemove s.freeSpaceSizeMap leftNode) rightNode
      freeSpaceStartAddressMap := s.freeSpaceStartAddressMap.remove endAddress
      freeSpaceEndAddressMap :=
        ((s.freeSpaceEndAddressMap.remove left.end).remove
          (endAddress + right.sizeInBytes)).add (endAddress + right.sizeInBytes) leftNode
      nodes := (s.nodes.remove rightNode).set leftNode merged }
  | some leftNode, none =>
    let left := s.node leftNode
    let merged : Block := ⟨left.start, left.sizeInBytes + sizeInBytes⟩
    { s with
      freeSpaceSizeMap :=
        (merged.sizeInBytes, leftNode) :: sizeMapRemove s.freeSpaceSizeMap leftNode
      freeSpaceEndAddressMap :=
        (s.freeSpaceEndAddressMap.remove left.end).add endAddress leftNode
      nodes := s.nodes.set leftNode merged }
  | none, some rightNode =>
    let right := s.node rightNode
    let merged : Block := ⟨start, right.sizeInBytes + sizeInBytes⟩
    { s with
      freeSpaceSizeMap :=
        (merged.sizeInBytes, rightNode) :: sizeMapRemove s.freeSpaceSizeMap rightNode
      freeSpaceStartAddressMap :=
        (s.freeSpaceStartAddressMap.remove endAddress).add start rightNode
      nodes := s.nodes.set rightNode merged }
  | none, none =>
    -- `allocFreeSpaceNode` returns a pointer that is not in use.
    { s with
      freeSpaceSizeMap := (sizeInBytes, s.nextNode) :: s.freeSpaceSizeMap
      freeSpaceStartAddressMap := s.freeSpaceStartAddressMap.add start s.nextNode
      freeSpaceEndAddressMap := s.freeSpaceEndAddressMap.add endAddress s.nextNode
      nodes := s.nodes.set s.nextNode ⟨start, sizeInBytes⟩
      nextNode := s.nextNode + 1 }

/-- `findAndRemoveFreeSpace`, given the node the size map found. The address zero stands for the
null pointer. -/
def State.findAndRemoveFreeSpace (g : Geometry) (s : State) (sizeInBytes : Nat) :
    Option Nat → Nat × State
  | none => (0, s)
  | some p =>
    let node := s.node p
    let sizeMap := sizeMapRemove s.freeSpaceSizeMap p
    if node.sizeInBytes = sizeInBytes then
      (node.start, { s with
        freeSpaceSizeMap := sizeMap
        freeSpaceStartAddressMap := s.freeSpaceStartAddressMap.remove node.start
        freeSpaceEndAddressMap := s.freeSpaceEndAddressMap.remove node.end
        nodes := s.nodes.remove p })
    else
      let firstPage := node.start / g.pageSize
      let lastPage := (node.start + node.sizeInBytes - 1) / g.pageSize
      let lastPageForLeftAllocation := (node.start + sizeInBytes - 1) / g.pageSize
      let firstPageForRightAllocation :=
        (node.start + node.sizeInBytes - sizeInBytes) / g.pageSize
      if lastPageForLeftAllocation - firstPage + 1 ≤ lastPage - firstPageForRightAllocation + 1 then
        let rest : Block := ⟨node.start + sizeInBytes, node.sizeInBytes - sizeInBytes⟩
        (node.start, { s with
          freeSpaceSizeMap := (rest.sizeInBytes, p) :: sizeMap
          freeSpaceStartAddressMap :=
            (s.freeSpaceStartAddressMap.remove node.start).add rest.start p
          nodes := s.nodes.set p rest })
      else
        let result := node.start + node.sizeInBytes - sizeInBytes
        let rest : Block := ⟨node.start, node.sizeInBytes - sizeInBytes⟩
        (result, { s with
          freeSpaceSizeMap := (rest.sizeInBytes, p) :: sizeMap
          freeSpaceEndAddressMap := (s.freeSpaceEndAddressMap.remove node.end).add result p
          nodes := s.nodes.set p rest })

/-! ## Page occupancy -/

/-- The body of the loop of `incrementPageOccupancy`. -/
def State.incrementPage (g : Geometry) (s : State) (page : Nat) : State :=
  match s.pageOccupancyMap.find page with
  | none => { s with
      pageOccupancyMap := s.pageOccupancyMap.add page 1
      bytesCommitted := s.bytesCommitted + g.pageSize
      notifications := .needPage page :: s.notifications }
  | some value => { s with pageOccupancyMap := s.pageOccupancyMap.set page (value + 1) }

/-- The loop of `incrementPageOccupancy` over `count` pages from `page` on. -/
def State.incrementPages (g : Geometry) (s : State) (page : Nat) : Nat → State
  | 0 => s
  | count + 1 => (s.incrementPage g page).incrementPages g (page + 1) count

/-- The body of the loop of `decrementPageOccupancy`. -/
def State.decrementPage (g : Geometry) (s : State) (page : Nat) : Except Fault State :=
  match s.pageOccupancyMap.find page with
  | none => .error .missingPage
  | some value =>
    if value - 1 = 0 then
      .ok { s with
        pageOccupancyMap := s.pageOccupancyMap.remove page
        bytesCommitted := s.bytesCommitted - g.pageSize
        notifications := .pageIsFree page :: s.notifications }
    else .ok { s with pageOccupancyMap := s.pageOccupancyMap.set page (value - 1) }

/-- The loop of `decrementPageOccupancy` over `count` pages from `page` on. -/
def State.decrementPages (g : Geometry) (s : State) (page : Nat) : Nat → Except Fault State
  | 0 => .ok s
  | count + 1 => do
    let s ← s.decrementPage g page
    s.decrementPages g (page + 1) count

def State.incrementPageOccupancy (g : Geometry) (s : State) (address sizeInBytes : Nat) : State :=
  let firstPage := address / g.pageSize
  let lastPage := (address + sizeInBytes - 1) / g.pageSize
  s.incrementPages g firstPage (lastPage + 1 - firstPage)

def State.decrementPageOccupancy (g : Geometry) (s : State) (address sizeInBytes : Nat) :
    Except Fault State :=
  let firstPage := address / g.pageSize
  let lastPage := (address + sizeInBytes - 1) / g.pageSize
  s.decrementPages g firstPage (lastPage + 1 - firstPage)

/-! ## The operations -/

/-- `roundUp`, to a multiple of the granule; it calls `CRASH()` when that would overflow. -/
def roundUp (g : Geometry) (sizeInBytes : Nat) : Except Fault Nat :=
  if sizeTModulus - 1 - g.allocationGranule ≤ sizeInBytes then .error .crash
  else .ok ((sizeInBytes + g.allocationGranule - 1) / g.allocationGranule * g.allocationGranule)

def State.addFreeSpaceFromReleasedHandle (s : State) (start sizeInBytes : Nat) : State :=
  { s with bytesAllocated := s.bytesAllocated - sizeInBytes }.addFreeSpace start sizeInBytes

def State.addFreshFreeSpace (s : State) (start sizeInBytes : Nat) : State :=
  { s with
    bytesReserved := s.bytesReserved + sizeInBytes
    reserved := ⟨start, sizeInBytes⟩ :: s.reserved }.addFreeSpace start sizeInBytes

/-- The number of pages `allocate` asks `allocateNewSpace` for. The sum is one of `size_t`. -/
def requestedNumberOfPages (g : Geometry) (sizeInBytes : Nat) : Nat :=
  (sizeInBytes + g.pageSize - 1) % sizeTModulus / g.pageSize

/-- The part of `allocate` after the search in the free space failed. `newSpace` is what
`allocateNewSpace` returned: a start address and a number of pages. -/
def State.growForAllocation (g : Geometry) (s : State) (sizeInBytes start numberOfPages : Nat) :
    State :=
  let roundedUpSize := numberOfPages * g.pageSize
  let s := { s with
    bytesReserved := s.bytesReserved + roundedUpSize
    reserved := ⟨start, roundedUpSize⟩ :: s.reserved }
  if roundedUpSize > sizeInBytes then
    s.addFreeSpace (start + sizeInBytes) (roundedUpSize - sizeInBytes)
  else s

/-- The end of `allocate`: commit the pages and make the handle. -/
def State.makeHandle (g : Geometry) (s : State) (start sizeInBytes : Nat) : State :=
  let s := s.incrementPageOccupancy g start sizeInBytes
  { s with
    bytesAllocated := s.bytesAllocated + sizeInBytes
    handles := s.handles.set s.nextHandle ⟨start, sizeInBytes⟩
    nextHandle := s.nextHandle + 1 }

def State.allocate (g : Geometry) (s : State) (sizeInBytes : Nat) (found : Option Nat)
    (newSpace : Option (Nat × Nat)) : Except Fault State :=
  if sizeInBytes = 0 then .ok s
  else do
    let sizeInBytes ← roundUp g sizeInBytes
    let (start, s) := s.findAndRemoveFreeSpace g sizeInBytes found
    if start = 0 then
      match newSpace with
      | none => .ok s
      | some (start, numberOfPages) =>
        .ok ((s.growForAllocation g sizeInBytes start numberOfPages).makeHandle g start sizeInBytes)
    else .ok (s.makeHandle g start sizeInBytes)

/-- `MetaAllocatorHandle::shrink`. -/
def State.shrink (g : Geometry) (s : State) (handle newSizeInBytes : Nat) : Except Fault State := do
  let h := (s.handles.find handle).getD ⟨0, 0⟩
  let newSizeInBytes ← roundUp g newSizeInBytes
  if newSizeInBytes = h.sizeInBytes then .ok s
  else
    let freeStart := h.start + newSizeInBytes
    let freeSize := h.sizeInBytes - newSizeInBytes
    let freeEnd := freeStart + freeSize
    let firstCompletelyFreePage := (freeStart + g.pageSize - 1) / g.pageSize * g.pageSize
    let s ← if firstCompletelyFreePage < freeEnd then
        s.decrementPageOccupancy g firstCompletelyFreePage
          (freeSize - (firstCompletelyFreePage - freeStart))
      else .ok s
    let s := s.addFreeSpaceFromReleasedHandle freeStart freeSize
    .ok { s with handles := s.handles.set handle ⟨h.start, newSizeInBytes⟩ }

/-- `MetaAllocator::release`, called by the destructor of the handle. -/
def State.release (g : Geometry) (s : State) (handle : Nat) : Except Fault State := do
  let h := (s.handles.find handle).getD ⟨0, 0⟩
  let s ← if h.sizeInBytes ≠ 0 then do
      let s ← s.decrementPageOccupancy g h.start h.sizeInBytes
      .ok (s.addFreeSpaceFromReleasedHandle h.start h.sizeInBytes)
    else .ok s
  .ok { s with handles := s.handles.remove handle }

/-! ## Runs -/

/-- A range of bytes, none of which the allocator was given before. -/
def State.Fresh (s : State) (start sizeInBytes : Nat) : Prop :=
  0 < start ∧ 0 < sizeInBytes ∧
    ∀ b ∈ s.reserved, start + sizeInBytes ≤ b.start ∨ b.end ≤ start

/-- What `allocateNewSpace` may return when asked for `requested` pages: nothing, or at least that
many fresh, page-aligned pages. Both executable allocators return nothing for a request of no
pages. -/
def State.NewSpace (g : Geometry) (s : State) (requested : Nat) : Option (Nat × Nat) → Prop
  | none => True
  | some (start, numberOfPages) =>
    0 < requested ∧ requested ≤ numberOfPages ∧ g.pageSize ∣ start ∧
      s.Fresh start (numberOfPages * g.pageSize)

inductive Op where
  | addFreshFreeSpace (start sizeInBytes : Nat)
  | allocate (sizeInBytes : Nat) (found : Option Nat) (newSpace : Option (Nat × Nat))
  | shrink (handle newSizeInBytes : Nat)
  | release (handle : Nat)

/-- What the callers and the environment guarantee about a call. -/
def State.Admits (g : Geometry) (s : State) : Op → Prop
  | .addFreshFreeSpace start sizeInBytes =>
    s.Fresh start sizeInBytes ∧ g.allocationGranule ∣ start ∧ g.allocationGranule ∣ sizeInBytes
  | .allocate sizeInBytes found newSpace =>
    ∀ size, roundUp g sizeInBytes = .ok size →
      FindsLeast s.freeSpaceSizeMap size found ∧
        s.NewSpace g (requestedNumberOfPages g size) newSpace
  | .shrink handle newSizeInBytes =>
    ∃ h, s.handles.find handle = some h ∧ newSizeInBytes ≤ h.sizeInBytes
  | .release handle => ∃ h, s.handles.find handle = some h

def State.exec (g : Geometry) (s : State) : Op → Except Fault State
  | .addFreshFreeSpace start sizeInBytes => .ok (s.addFreshFreeSpace start sizeInBytes)
  | .allocate sizeInBytes found newSpace => s.allocate g sizeInBytes found newSpace
  | .shrink handle newSizeInBytes => s.shrink g handle newSizeInBytes
  | .release handle => s.release g handle

/-- One call, made under the callers' guarantees, that returned. -/
def Step (g : Geometry) (s t : State) : Prop := ∃ op, s.Admits g op ∧ s.exec g op = .ok t

/-- The states after every sequence of calls. -/
def Reachable (g : Geometry) : State → Prop := Relation.ReflTransGen (Step g) .initial

/-- The runs, with each call and the state it was made in (newest first). -/
inductive Run (g : Geometry) : List (State × Op) → State → Prop
  | initial : Run g [] .initial
  | step {steps : List (State × Op)} {s t : State} {op : Op} : Run g steps s → s.Admits g op →
      s.exec g op = .ok t → Run g ((s, op) :: steps) t

theorem Run.reachable {g : Geometry} {steps : List (State × Op)} {s : State} (h : Run g steps s) :
    Reachable g s := by
  induction h with
  | initial => exact .refl
  | step _ hadmits hexec ih => exact ih.tail ⟨_, hadmits, hexec⟩

end Odyssey.WTF.MetaAllocator
