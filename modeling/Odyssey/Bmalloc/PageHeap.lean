import Mathlib.Logic.Function.Basic
import Odyssey.Bmalloc.LineMetadata

/-!
# Small and medium pages

The part of `Heap` and `VMHeap` that serves small and medium objects: reference counts of lines and
pages, the page lists, `refillSmallBumpRangeCache` and `deallocateSmallLine` with their medium
twins. The two sides run the same code on their own constants, so the code is written once for a
`Kind`.

Addresses are counted inside the chunks of one kind, chunk after chunk in the order they were
created: line `l` covers `[l * lineSize, (l + 1) * lineSize)` and page `p` covers
`[p * vmPageSize, (p + 1) * vmPageSize)`. A vector used as a stack is a list with its top first.
-/

namespace Odyssey.Bmalloc

open Function (update)

structure BumpRange where
  begin : Nat
  objectCount : Nat
  deriving DecidableEq, Repr

/-- A small or medium object with the class it was cut for. The code sees its address only, whose
chunk tells the kind (`isSmall`). -/
structure Object where
  sizeClass : SizeClass
  address : Nat
  deriving DecidableEq, Repr

def Object.kind (o : Object) : Kind :=
  o.sizeClass.kind

/-- `Line::get`. -/
def Object.line (o : Object) : Nat :=
  o.address / o.kind.lineSize

/-- The objects a bump allocator cuts from a range, in order. -/
def BumpRange.objects (c : SizeClass) (r : BumpRange) : List Object :=
  (List.range r.objectCount).map fun i => ⟨c, r.begin + i * objectSize c⟩

/-- The lines and pages of one kind and the lists of pages that hold them. `scavenging` has the
pages between the two halves of `VMHeap::deallocateSmallPage`, which drops the lock. -/
structure PageHeap where
  lineRefCount : Nat → Nat
  pageRefCount : Nat → Nat
  pageSizeClass : Nat → SizeClass
  pagesWithFreeLines : SizeClass → List Nat
  pages : List Nat
  vmPages : List Nat
  scavenging : List Nat

/-- `Page::get`. -/
def pageOfLine (P : Platform) (k : Kind) (line : Nat) : Nat :=
  line * k.lineSize / vmPageSize P

namespace PageHeap

def empty : PageHeap where
  lineRefCount := fun _ => 0
  pageRefCount := fun _ => 0
  pageSizeClass := fun _ => 0
  pagesWithFreeLines := fun _ => []
  pages := []
  vmPages := []
  scavenging := []

/-- `lines[l].ref(objectCount)` and `page->ref()`. -/
def ref (h : PageHeap) (page line objectCount : Nat) : PageHeap :=
  { h with
    lineRefCount := update h.lineRefCount line objectCount
    pageRefCount := update h.pageRefCount page (h.pageRefCount page + 1) }

def setSizeClass (h : PageHeap) (page : Nat) (c : SizeClass) : PageHeap :=
  { h with pageSizeClass := update h.pageSizeClass page c }

def setPagesWithFreeLines (h : PageHeap) (c : SizeClass) (list : List Nat) : PageHeap :=
  { h with pagesWithFreeLines := update h.pagesWithFreeLines c list }

/-- `deallocateSmallLine` and `deallocateMediumLine`. -/
def deallocateLine (P : Platform) (k : Kind) (h : PageHeap) (line : Nat) : PageHeap :=
  let page := pageOfLine P k line
  let refCount := h.pageRefCount page
  let h := { h with pageRefCount := update h.pageRefCount page (refCount - 1) }
  if refCount = lineCount P k then
    -- First free line in the page.
    h.setPagesWithFreeLines (h.pageSizeClass page)
      (page :: h.pagesWithFreeLines (h.pageSizeClass page))
  else if refCount = 1 then
    -- Last free line in the page.
    { h with pages := page :: h.pages }
  else
    h

/-- `derefSmallLine` and `derefMediumLine`. -/
def derefLine (P : Platform) (k : Kind) (h : PageHeap) (line : Nat) : PageHeap :=
  let h := { h with lineRefCount := update h.lineRefCount line (h.lineRefCount line - 1) }
  if h.lineRefCount line ≠ 0 then h else h.deallocateLine P k line

/-- The loop of `allocateSmallPage` over `smallPagesWithFreeLines`: the page it returns and what is
left of the list. Pages that were promoted to the pages list are dropped. -/
def takePageWithFreeLines (h : PageHeap) (c : SizeClass) : List Nat → Option (Nat × List Nat)
  | [] => none
  | page :: list =>
    if h.pageRefCount page = 0 ∨ h.pageSizeClass page ≠ c then
      h.takePageWithFreeLines c list
    else
      some (page, list)

/-- `end` of the refill loops: the last line may not be able to fit any objects. -/
def refillEnd (P : Platform) (c : SizeClass) : Nat :=
  if (lineMetadata P c (lineCount P c.kind - 1)).objectCount = 0 then
    lineCount P c.kind - 1
  else
    lineCount P c.kind

/-- The loops of `refillSmallBumpRangeCache` over the `lines` lines from `lineNumber` on: the ranges
pushed, in order. `open?` is the range that the inner loop is merging free lines into. -/
def refillLines (P : Platform) (c : SizeClass) (page : Nat) :
    (lines lineNumber : Nat) → (open? : Option BumpRange) → PageHeap → List BumpRange × PageHeap
  | 0, _, none, h => ([], h)
  | 0, _, some range, h => ([range], h)
  | lines + 1, lineNumber, open?, h =>
    let line := page * lineCount P c.kind + lineNumber
    let row := lineMetadata P c lineNumber
    match open? with
    | none =>
      if h.lineRefCount line ≠ 0 then
        h.refillLines P c page lines (lineNumber + 1) none
      else
        (h.ref page line row.objectCount).refillLines P c page lines (lineNumber + 1)
          (some ⟨line * c.kind.lineSize + row.startOffset, row.objectCount⟩)
    | some range =>
      if h.lineRefCount line ≠ 0 then
        let rest := h.refillLines P c page lines (lineNumber + 1) none
        (range :: rest.1, rest.2)
      else
        (h.ref page line row.objectCount).refillLines P c page lines (lineNumber + 1)
          (some { range with objectCount := range.objectCount + row.objectCount })

/-- The scavenger takes a page; the lock is dropped while its memory is returned. -/
def beginScavengePage (h : PageHeap) : PageHeap :=
  match h.pages with
  | [] => h
  | page :: pages => { h with pages := pages, scavenging := page :: h.scavenging }

/-- `VMHeap::deallocateSmallPage` gets the lock back, for any of the pages that are being returned.
-/
def endScavengePage (page : Nat) (h : PageHeap) : PageHeap :=
  if page ∈ h.scavenging then
    { h with scavenging := h.scavenging.erase page, vmPages := page :: h.vmPages }
  else h

end PageHeap

/-! ## The heap of both kinds -/

/-- Pages of a chunk, metadata included. -/
def chunkPageCount (P : Platform) : Nat :=
  chunkSize / vmPageSize P

/-- The page of `m_memory`: the metadata, one byte a line and two a page, comes first. -/
def firstPage (P : Platform) (k : Kind) : Nat :=
  (chunkSize / k.lineSize + 2 * chunkPageCount P + (vmPageSize P - 1)) / vmPageSize P

/-- `begin()` to `end()` of the chunk created after `chunk` others. -/
def chunkPages (P : Platform) (k : Kind) (chunk : Nat) : List Nat :=
  (List.range' (firstPage P k) (chunkPageCount P - firstPage P k)).map
    (chunk * chunkPageCount P + ·)

structure Heap where
  pageHeap : Kind → PageHeap
  chunks : Nat

namespace Heap

def empty : Heap where
  pageHeap := fun _ => .empty
  chunks := 0

def modify (h : Heap) (k : Kind) (f : PageHeap → PageHeap) : Heap :=
  { h with pageHeap := update h.pageHeap k (f (h.pageHeap k)) }

/-- `VMHeap::grow`, its small and medium parts. -/
def grow (P : Platform) (h : Heap) : Heap where
  pageHeap := fun k =>
    { h.pageHeap k with vmPages := (chunkPages P k h.chunks).reverse ++ (h.pageHeap k).vmPages }
  chunks := h.chunks + 1

def growIfNeeded (P : Platform) (k : Kind) (h : Heap) : Heap :=
  if (h.pageHeap k).vmPages = [] then h.grow P else h

/-- `VMHeap::allocateSmallPage`; `none` is `pop` of an empty vector. -/
def allocateVMPage (P : Platform) (k : Kind) (h : Heap) : Option (Nat × Heap) :=
  let h := h.growIfNeeded P k
  match (h.pageHeap k).vmPages with
  | [] => none
  | page :: vmPages => some (page, h.modify k fun pages => { pages with vmPages := vmPages })

/-- A page that no class uses: from the pages list or from the VM heap. -/
def takeFreePage (P : Platform) (k : Kind) (h : Heap) : Option (Nat × Heap) :=
  match (h.pageHeap k).pages with
  | page :: rest => some (page, h.modify k fun pages => { pages with pages := rest })
  | [] => h.allocateVMPage P k

/-- `allocateSmallPage` and `allocateMediumPage`. -/
def allocatePage (P : Platform) (c : SizeClass) (h : Heap) : Option (Nat × Heap) :=
  let pages := h.pageHeap c.kind
  match pages.takePageWithFreeLines c (pages.pagesWithFreeLines c) with
  | some (page, list) => some (page, h.modify c.kind (·.setPagesWithFreeLines c list))
  | none =>
    ((h.modify c.kind (·.setPagesWithFreeLines c [])).takeFreePage P c.kind).map
      fun (page, h) => (page, h.modify c.kind (·.setSizeClass page c))

/-- `refillSmallBumpRangeCache` and `refillMediumBumpRangeCache`: the ranges pushed, in order. -/
def refillBumpRangeCache (P : Platform) (c : SizeClass) (h : Heap) :
    Option (List BumpRange × Heap) :=
  (h.allocatePage P c).map fun (page, h) =>
    let refilled := (h.pageHeap c.kind).refillLines P c page (PageHeap.refillEnd P c) 0 none
    (refilled.1, h.modify c.kind fun _ => refilled.2)

end Heap

end Odyssey.Bmalloc
