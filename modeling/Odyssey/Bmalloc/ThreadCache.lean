import Odyssey.Bmalloc.PageHeap
import Odyssey.Lib.Runs

/-!
# Thread caches

`Allocator`, `Deallocator` and `BumpAllocator` for small and medium objects, any number of threads
over one heap, and the steps they take. A step is what one thread does between two points at which
another thread may run: the heap is touched only under its lock. `Allocator::scavenge` takes the
lock once for every full object log, so it is split into the steps of its loops; `Cache.scavenge` is
the whole call.
-/

namespace Odyssey.Bmalloc

open Function (update)

structure BumpAllocator where
  ptr : Nat
  remaining : Nat
  deriving DecidableEq, Repr

namespace BumpAllocator

def null : BumpAllocator := ⟨0, 0⟩

/-- `allocate`; `none` is the failed assertion on `m_remaining`. -/
def allocate (c : SizeClass) (a : BumpAllocator) : Option (Object × BumpAllocator) :=
  if a.remaining = 0 then
    none
  else
    some (⟨c, a.ptr⟩, ⟨a.ptr + objectSize c, a.remaining - 1⟩)

def refill (range : BumpRange) : BumpAllocator :=
  ⟨range.begin, range.objectCount⟩

end BumpAllocator

/-- What a thread keeps: the range caches have their top first, the log its oldest entry. -/
structure Cache where
  bumpAllocators : SizeClass → BumpAllocator
  bumpRangeCaches : SizeClass → List BumpRange
  objectLog : List Object

/-- `heap->derefSmallLine(lock, SmallLine::get(object))`. -/
def Heap.derefObject (P : Platform) (h : Heap) (o : Object) : Heap :=
  h.modify o.kind fun pages => pages.derefLine P o.kind o.line

namespace Cache

def empty : Cache where
  bumpAllocators := fun _ => .null
  bumpRangeCaches := fun _ => []
  objectLog := []

def setAllocator (cache : Cache) (c : SizeClass) (a : BumpAllocator) : Cache :=
  { cache with bumpAllocators := update cache.bumpAllocators c a }

def setRanges (cache : Cache) (c : SizeClass) (ranges : List BumpRange) : Cache :=
  { cache with bumpRangeCaches := update cache.bumpRangeCaches c ranges }

def processObjectLog (P : Platform) (h : Heap) (cache : Cache) : Heap × Cache :=
  (cache.objectLog.foldl (Heap.derefObject P) h, { cache with objectLog := [] })

/-- `deallocateFastCase`, and `deallocateSlowCase` when the log is full. -/
def deallocate (P : Platform) (h : Heap) (cache : Cache) (o : Object) : Heap × Cache :=
  let (h, cache) :=
    if cache.objectLog.length = deallocatorLogCapacity then cache.processObjectLog P h
    else (h, cache)
  (h, { cache with objectLog := cache.objectLog ++ [o] })

/-- `allocateBumpRange`, and `allocateBumpRangeSlowCase` when the cache is empty; `none` is `pop` of
an empty cache. -/
def allocateBumpRange (P : Platform) (c : SizeClass) (h : Heap) (cache : Cache) :
    Option (BumpRange × Heap × Cache) :=
  match cache.bumpRangeCaches c with
  | range :: ranges => some (range, h, cache.setRanges c ranges)
  | [] =>
    match h.refillBumpRangeCache P c with
    | none => none
    | some (pushed, h) =>
      match pushed.reverse with
      | [] => none
      | range :: ranges => some (range, h, cache.setRanges c ranges)

/-- `allocator.allocate()` of one class. -/
def bump (c : SizeClass) (cache : Cache) : Option (Object × Cache) :=
  ((cache.bumpAllocators c).allocate c).map fun (o, a) => (o, cache.setAllocator c a)

/-- `allocateFastCase`, and `allocateSlowCase` when the bump allocator is empty. -/
def allocate (P : Platform) (c : SizeClass) (h : Heap) (cache : Cache) :
    Option (Object × Heap × Cache) :=
  if (cache.bumpAllocators c).remaining ≠ 0 then
    (cache.bump c).map fun (o, cache) => (o, h, cache)
  else
    match cache.allocateBumpRange P c h with
    | none => none
    | some (range, h, cache) =>
      ((cache.setAllocator c (.refill range)).bump c).map fun (o, cache) => (o, h, cache)

/-- `m_deallocator.deallocate(allocator.allocate())`. -/
def scavengeObject (P : Platform) (c : SizeClass) (h : Heap) (cache : Cache) :
    Option (Heap × Cache) :=
  (cache.bump c).map fun (o, cache) => cache.deallocate P h o

/-- `allocator.refill(bumpRangeCache.pop())`, for an allocator that is empty. -/
def scavengeRange (c : SizeClass) (cache : Cache) : Option Cache :=
  match cache.bumpRangeCaches c with
  | [] => none
  | range :: ranges =>
    if (cache.bumpAllocators c).remaining ≠ 0 then none
    else some ((cache.setRanges c ranges).setAllocator c (.refill range))

/-- `while (allocator.canAllocate())` of `scavenge`, for `n` objects. -/
def drain (P : Platform) (c : SizeClass) : (n : Nat) → Heap × Cache → Heap × Cache
  | 0, s => s
  | n + 1, s =>
    match s.2.scavengeObject P c s.1 with
    | none => s
    | some s => drain P c n s

/-- `while (bumpRangeCache.size())` of `scavenge`, for `n` ranges. -/
def drainRanges (P : Platform) (c : SizeClass) : (n : Nat) → Heap × Cache → Heap × Cache
  | 0, s => s
  | n + 1, s =>
    match s.2.scavengeRange c with
    | none => s
    | some cache =>
      drainRanges P c n (drain P c (cache.bumpAllocators c).remaining (s.1, cache))

/-- The body of the loop of `scavenge`. -/
def scavengeClass (P : Platform) (s : Heap × Cache) (c : SizeClass) : Heap × Cache :=
  let s := drain P c (s.2.bumpAllocators c).remaining s
  let s := drainRanges P c (s.2.bumpRangeCaches c).length s
  (s.1, s.2.setAllocator c .null)

/-- `Allocator::scavenge`, when no other thread runs. -/
def scavenge (P : Platform) (s : Heap × Cache) : Heap × Cache :=
  (List.finRange 128).foldl (scavengeClass P) s

end Cache

/-- The heap, the caches of the threads, and the objects that the program holds. -/
structure State (Thread : Type) where
  heap : Heap
  caches : Thread → Cache
  live : List Object

inductive Action (Thread : Type) where
  /-- A thread asks for `size` bytes. -/
  | allocate (t : Thread) (size : UInt64)
  /-- A thread frees an object, which any thread may have got. -/
  | deallocate (t : Thread) (o : Object)
  /-- `Deallocator::scavenge`. -/
  | processObjectLog (t : Thread)
  /-- The steps of `Allocator::scavenge`. -/
  | scavengeObject (t : Thread) (c : SizeClass)
  | scavengeRange (t : Thread) (c : SizeClass)
  | clear (t : Thread) (c : SizeClass)
  /-- The two halves of one round of `Heap::scavengeSmallPages` or `scavengeMediumPages`. -/
  | beginScavengePage (k : Kind)
  | endScavengePage (k : Kind) (page : Nat)

variable {Thread : Type} [DecidableEq Thread]

namespace State

def init : State Thread where
  heap := .empty
  caches := fun _ => .empty
  live := []

def setCache (s : State Thread) (t : Thread) (heap : Heap) (cache : Cache) : State Thread :=
  { s with heap := heap, caches := update s.caches t cache }

/-- One step; `none` if the step is not possible or an assertion of the code fails. -/
def step (P : Platform) (s : State Thread) : Action Thread → Option (State Thread)
  | .allocate t size =>
    if size.toNat ≤ mediumMax then
      ((s.caches t).allocate P (sizeClass size) s.heap).map fun (o, heap, cache) =>
        { s.setCache t heap cache with live := o :: s.live }
    else
      none
  | .deallocate t o =>
    if o ∈ s.live then
      let result := (s.caches t).deallocate P s.heap o
      some { s.setCache t result.1 result.2 with live := s.live.erase o }
    else
      none
  | .processObjectLog t =>
    let result := (s.caches t).processObjectLog P s.heap
    some (s.setCache t result.1 result.2)
  | .scavengeObject t c =>
    ((s.caches t).scavengeObject P c s.heap).map fun (heap, cache) => s.setCache t heap cache
  | .scavengeRange t c =>
    ((s.caches t).scavengeRange c).map fun cache => s.setCache t s.heap cache
  | .clear t c =>
    if ((s.caches t).bumpAllocators c).remaining = 0 ∧ (s.caches t).bumpRangeCaches c = [] then
      some (s.setCache t s.heap ((s.caches t).setAllocator c .null))
    else
      none
  | .beginScavengePage k => some { s with heap := s.heap.modify k PageHeap.beginScavengePage }
  | .endScavengePage k page =>
    some { s with heap := s.heap.modify k (PageHeap.endScavengePage page) }

/-- A history, the threads' steps in any order. -/
def run (P : Platform) (s : State Thread) (actions : List (Action Thread)) :
    Option (State Thread) :=
  Lib.Runs.run (step P) s actions

end State

end Odyssey.Bmalloc
