import Mathlib.Algebra.BigOperators.Fin
import Mathlib.Tactic.Abel
import Odyssey.Bmalloc.HeapInvariant

/-!
# Small and medium objects never overlap

Every object not yet freed is held by the program, waits in a bump allocator or a range cache of
some thread, or stands in some thread's object log. `State.objects` is the multiset of all of them;
each step of a thread moves objects between these places, a refill adds those of its ranges and the
processing of a log takes its objects away. So the heap's invariant holds after every history.
-/

namespace Odyssey.Bmalloc

open Function (update)
open PageHeap (rangesObjects rangesObjects_nil rangesObjects_cons)

variable {P : Platform} {c : SizeClass} {Thread : Type}

theorem sum_update_add {ι : Type} [Fintype ι] [DecidableEq ι] {α : Type} (f : ι → Multiset α)
    (i : ι) (b : Multiset α) : ∑ x, update f i b x + f i = ∑ x, f x + b := by
  rw [Finset.sum_update_of_mem (Finset.mem_univ i),
    Finset.sum_eq_add_sum_sdiff_singleton_of_mem (Finset.mem_univ i) f]
  abel

/-! ## The objects of a cache -/

namespace BumpAllocator

def objects (c : SizeClass) (a : BumpAllocator) : Multiset Object :=
  BumpRange.objects c ⟨a.ptr, a.remaining⟩

theorem objects_of_remaining_eq_zero {a : BumpAllocator} (h : a.remaining = 0) :
    a.objects c = 0 := by
  simp [objects, BumpRange.objects, h]

/-- The next object of a bump allocator is the first of its range. -/
theorem allocate_objects {a a' : BumpAllocator} {o : Object} (h : a.allocate c = some (o, a')) :
    a.objects c = o ::ₘ a'.objects c ∧ a'.remaining + 1 = a.remaining := by
  unfold allocate at h
  split_ifs at h with zero
  obtain ⟨rfl, rfl⟩ := Prod.mk.inj (Option.some.inj h)
  have eq : a.remaining = 1 + (a.remaining - 1) := by omega
  refine ⟨?_, by dsimp only; omega⟩
  unfold objects
  rw [eq, PageHeap.objects_add, Nat.one_mul, Nat.add_sub_cancel_left]
  simp [BumpRange.objects]

end BumpAllocator

namespace Cache

variable {cache cache' : Cache} {h h' : Heap} {o : Object} {others : Multiset Object}

def classObjects (cache : Cache) (c : SizeClass) : Multiset Object :=
  (cache.bumpAllocators c).objects c + rangesObjects c (cache.bumpRangeCaches c)

/-- The objects a cache holds, for allocations to come or to be freed. -/
def objects (cache : Cache) : Multiset Object :=
  (cache.objectLog : Multiset Object) + ∑ c, cache.classObjects c

theorem objects_empty : Cache.empty.objects = 0 := by
  simp [objects, classObjects, empty, BumpAllocator.objects, BumpAllocator.null, BumpRange.objects]

/-- Replacing what a cache has for one class. -/
theorem objects_update (cache cache' : Cache) (c : SizeClass)
    (log : cache'.objectLog = cache.objectLog)
    (same : ∀ c' ≠ c, cache'.classObjects c' = cache.classObjects c') :
    cache'.objects + cache.classObjects c = cache.objects + cache'.classObjects c := by
  have eq : cache'.classObjects = update cache.classObjects c (cache'.classObjects c) := by
    funext c'
    by_cases eq : c' = c
    · rw [eq, Function.update_self]
    · rw [Function.update_of_ne eq, same c' eq]
  have sum := sum_update_add cache.classObjects c (cache'.classObjects c)
  rw [← eq] at sum
  rw [objects, objects, log, add_assoc, sum, ← add_assoc]

theorem setAllocator_objects (cache : Cache) (c : SizeClass) (a : BumpAllocator) :
    (cache.setAllocator c a).objects + (cache.bumpAllocators c).objects c =
      cache.objects + a.objects c := by
  have eq := cache.objects_update (cache.setAllocator c a) c rfl fun c' ne => by
    simp [classObjects, setAllocator, Function.update_of_ne ne]
  simp only [classObjects, setAllocator, Function.update_self] at eq ⊢
  rw [← add_assoc, ← add_assoc] at eq
  exact add_right_cancel eq

theorem setRanges_objects (cache : Cache) (c : SizeClass) (ranges : List BumpRange) :
    (cache.setRanges c ranges).objects + rangesObjects c (cache.bumpRangeCaches c) =
      cache.objects + rangesObjects c ranges := by
  have eq := cache.objects_update (cache.setRanges c ranges) c rfl fun c' ne => by
    simp [classObjects, setRanges, Function.update_of_ne ne]
  simp only [classObjects, setRanges, Function.update_self] at eq ⊢
  rw [add_left_comm, add_left_comm cache.objects] at eq
  exact add_left_cancel eq

/-- The ranges a thread has cached are not empty. -/
def RangesPos (cache : Cache) : Prop :=
  ∀ c, ∀ range ∈ cache.bumpRangeCaches c, 0 < range.objectCount

theorem RangesPos.setRanges (pos : cache.RangesPos) {ranges : List BumpRange}
    (new : ∀ range ∈ ranges, 0 < range.objectCount) : (cache.setRanges c ranges).RangesPos := by
  intro c' range mem
  change range ∈ update cache.bumpRangeCaches c ranges c' at mem
  by_cases eq : c' = c
  · subst eq
    rw [Function.update_self] at mem
    exact new range mem
  · rw [Function.update_of_ne eq] at mem
    exact pos c' range mem

/-! ## What the operations do to the objects -/

theorem bump_spec (b : cache.bump c = some (o, cache')) :
    cache.objects = o ::ₘ cache'.objects ∧ cache'.bumpRangeCaches = cache.bumpRangeCaches := by
  unfold bump at b
  obtain ⟨⟨o', a⟩, allocate, eq⟩ := Option.map_eq_some_iff.mp b
  obtain ⟨rfl, rfl⟩ := Prod.mk.inj eq
  refine ⟨?_, rfl⟩
  have objects := cache.setAllocator_objects c a
  rw [(BumpAllocator.allocate_objects allocate).1, Multiset.add_cons,
    ← Multiset.cons_add] at objects
  exact (add_right_cancel objects).symm

/-- An empty bump allocator is given a range of the cache. -/
theorem refill_objects (zero : (cache.bumpAllocators c).remaining = 0) (range : BumpRange) :
    (cache.setAllocator c (.refill range)).objects =
      cache.objects + (range.objects c : Multiset Object) := by
  have objects := cache.setAllocator_objects c (.refill range)
  rwa [BumpAllocator.objects_of_remaining_eq_zero zero, add_zero] at objects

theorem allocateBumpRange_spec (inv : h.Inv P (cache.objects + others)) (pos : cache.RangesPos) :
    ∃ range h' cache', cache.allocateBumpRange P c h = some (range, h', cache') ∧
      h'.Inv P (cache'.objects + (range.objects c : Multiset Object) + others) ∧
      cache'.RangesPos ∧ cache'.bumpAllocators = cache.bumpAllocators ∧ 0 < range.objectCount := by
  unfold allocateBumpRange
  cases ranges : cache.bumpRangeCaches c with
  | cons range rest =>
    have objects_eq := cache.setRanges_objects c rest
    rw [ranges, rangesObjects_cons, ← add_assoc] at objects_eq
    have pos' := pos c
    rw [ranges] at pos'
    refine ⟨range, h, _, rfl, ?_, pos.setRanges fun r mem => pos' r (List.mem_cons_of_mem _ mem),
      rfl, pos' range List.mem_cons_self⟩
    rwa [add_right_cancel objects_eq]
  | nil =>
    obtain ⟨pushed, h', refill, inv', one, -, pushed_pos⟩ := inv.refillBumpRangeCache c
    simp only [refill]
    have mem_iff : ∀ r, r ∈ pushed.reverse ↔ r ∈ pushed := fun r => List.mem_reverse
    have perm : rangesObjects c pushed = rangesObjects c pushed.reverse :=
      Multiset.coe_eq_coe.mpr ((List.reverse_perm pushed).symm.flatMap_right _)
    cases reversed : pushed.reverse with
    | nil =>
      rw [List.reverse_eq_nil_iff] at reversed
      rw [reversed] at one
      exact absurd one (by decide)
    | cons range rest =>
      rw [reversed] at mem_iff perm
      have objects_eq := cache.setRanges_objects c rest
      rw [ranges, rangesObjects_nil, add_zero] at objects_eq
      refine ⟨range, h', _, rfl, ?_, pos.setRanges fun r mem =>
        pushed_pos r ((mem_iff r).mp (List.mem_cons_of_mem _ mem)), rfl,
        pushed_pos range ((mem_iff range).mp List.mem_cons_self)⟩
      rw [perm, rangesObjects_cons] at inv'
      rw [objects_eq]
      convert inv' using 1
      abel

/-- An allocation succeeds and its object leaves the cache. -/
theorem allocate_spec (inv : h.Inv P (cache.objects + others)) (pos : cache.RangesPos) :
    ∃ o h' cache', cache.allocate P c h = some (o, h', cache') ∧
      h'.Inv P (o ::ₘ (cache'.objects + others)) ∧ cache'.RangesPos := by
  unfold allocate
  split_ifs with can
  · have some : ∃ o cache', cache.bump c = some (o, cache') := by
      simp [bump, BumpAllocator.allocate, can]
    obtain ⟨o, cache', bump⟩ := some
    obtain ⟨objects_eq, ranges⟩ := bump_spec bump
    refine ⟨o, h, cache', by simp [bump], ?_, ?_⟩
    · rwa [objects_eq, Multiset.cons_add] at inv
    · simpa only [RangesPos, ranges] using pos
  · rw [ne_eq, not_not] at can
    obtain ⟨range, h', cache', eq, inv', pos', allocators, range_pos⟩ :=
      allocateBumpRange_spec (c := c) inv pos
    have some : ∃ o cache'', (cache'.setAllocator c (.refill range)).bump c =
        some (o, cache'') := by
      simp [bump, setAllocator, BumpAllocator.allocate, BumpAllocator.refill, range_pos.ne']
    obtain ⟨o, cache'', bump⟩ := some
    obtain ⟨objects_eq, ranges⟩ := bump_spec bump
    refine ⟨o, h', cache'', by simp [eq, bump], ?_, ?_⟩
    · rw [← refill_objects (by rw [allocators, can]), objects_eq, Multiset.cons_add] at inv'
      exact inv'
    · change ∀ c, ∀ range ∈ cache''.bumpRangeCaches c, 0 < range.objectCount
      rw [ranges]
      exact pos'

theorem processObjectLog_spec (inv : h.Inv P (cache.objects + others)) :
    (cache.processObjectLog P h).1.Inv P ((cache.processObjectLog P h).2.objects + others) := by
  refine Heap.Inv.foldl_derefObject _ ?_
  convert inv using 1
  simp only [processObjectLog, Cache.objects, classObjects, Multiset.coe_nil, zero_add]
  abel

theorem deallocate_spec (inv : h.Inv P (o ::ₘ (cache.objects + others))) :
    (cache.deallocate P h o).1.Inv P ((cache.deallocate P h o).2.objects + others) := by
  have push : ∀ {cache : Cache} {h : Heap}, h.Inv P (cache.objects + (o ::ₘ others)) →
      h.Inv P ({ cache with objectLog := cache.objectLog ++ [o] }.objects + others) := by
    intro cache h inv
    convert inv using 1
    simp only [Cache.objects, classObjects, ← Multiset.coe_add, Multiset.coe_singleton,
      ← Multiset.singleton_add]
    abel
  rw [← Multiset.add_cons] at inv
  unfold deallocate
  split_ifs with full
  · exact push (processObjectLog_spec inv)
  · exact push inv

/-- Neither touches what is cached for allocations. -/
theorem deallocate_ranges :
    (cache.deallocate P h o).2.bumpRangeCaches = cache.bumpRangeCaches ∧
      (cache.deallocate P h o).2.bumpAllocators = cache.bumpAllocators := by
  unfold deallocate
  split_ifs <;> exact ⟨rfl, rfl⟩

theorem scavengeObject_spec {s : Heap × Cache} (inv : h.Inv P (cache.objects + others))
    (eq : cache.scavengeObject P c h = some s) :
    s.1.Inv P (s.2.objects + others) ∧ s.2.bumpRangeCaches = cache.bumpRangeCaches := by
  obtain ⟨⟨o, cache'⟩, bump, rfl⟩ := Option.map_eq_some_iff.mp eq
  obtain ⟨objects_eq, ranges⟩ := bump_spec bump
  rw [objects_eq, Multiset.cons_add] at inv
  exact ⟨deallocate_spec inv, deallocate_ranges.1.trans ranges⟩

theorem scavengeRange_spec (pos : cache.RangesPos) (eq : cache.scavengeRange c = some cache') :
    cache'.objects = cache.objects ∧ cache'.RangesPos := by
  unfold scavengeRange at eq
  cases ranges : cache.bumpRangeCaches c with
  | nil => simp [ranges] at eq
  | cons range rest =>
    simp only [ranges] at eq
    split_ifs at eq with zero
    rw [ne_eq, not_not] at zero
    obtain rfl := Option.some.inj eq
    have pos' := pos c
    rw [ranges] at pos'
    have objects_eq := cache.setRanges_objects c rest
    rw [ranges, rangesObjects_cons, ← add_assoc] at objects_eq
    refine ⟨?_, pos.setRanges fun r mem => pos' r (List.mem_cons_of_mem _ mem)⟩
    have zero' : ((cache.setRanges c rest).bumpAllocators c).remaining = 0 := zero
    rw [refill_objects zero', add_right_cancel objects_eq]

end Cache

/-! ## Histories -/

namespace State

variable [Fintype Thread] {s s' : State Thread}

/-- The objects not yet freed: live, cached or logged. -/
def objects (s : State Thread) : Multiset Object :=
  (s.live : Multiset Object) + ∑ t, (s.caches t).objects

structure Inv (P : Platform) (s : State Thread) : Prop where
  heap : s.heap.Inv P s.objects
  ranges : ∀ t, (s.caches t).RangesPos

theorem inv_init : (init : State Thread).Inv P := by
  refine ⟨?_, fun t c range mem => absurd mem List.not_mem_nil⟩
  have : (init : State Thread).objects = 0 := by simp [objects, init, Cache.objects_empty]
  rw [this]
  exact Heap.inv_empty

variable [DecidableEq Thread]

/-- The objects that a step of thread `t` leaves where they are. -/
def othersObjects (s : State Thread) (t : Thread) : Multiset Object :=
  ∑ t' ∈ Finset.univ \ {t}, (s.caches t').objects

theorem objects_eq (s : State Thread) (t : Thread) :
    s.objects = (s.caches t).objects + ((s.live : Multiset Object) + s.othersObjects t) := by
  rw [objects, othersObjects,
    Finset.sum_eq_add_sum_sdiff_singleton_of_mem (Finset.mem_univ t) fun t => (s.caches t).objects]
  abel

theorem setCache_objects (s : State Thread) (t : Thread) (heap : Heap) (cache : Cache)
    (live : List Object) :
    { s.setCache t heap cache with live := live }.objects =
      cache.objects + ((live : Multiset Object) + s.othersObjects t) := by
  rw [objects_eq _ t]
  have others : { s.setCache t heap cache with live := live }.othersObjects t =
      s.othersObjects t := by
    refine Finset.sum_congr rfl fun t' mem => ?_
    have ne : t' ≠ t := by simpa using mem
    simp [setCache, Function.update_of_ne ne]
  rw [others]
  simp [setCache]

/-- What a step of a thread must keep. -/
theorem Inv.setCache (inv : s.Inv P) {t : Thread} {heap : Heap} {cache : Cache}
    {live : List Object}
    (heap_inv : heap.Inv P (cache.objects + ((live : Multiset Object) + s.othersObjects t)))
    (pos : cache.RangesPos) : { s.setCache t heap cache with live := live }.Inv P := by
  refine ⟨?_, fun t' => ?_⟩
  · rw [setCache_objects]
    exact heap_inv
  · change (update s.caches t cache t').RangesPos
    rw [Function.update_apply]
    split_ifs
    · exact pos
    · exact inv.ranges t'

theorem Inv.heap_at (inv : s.Inv P) (t : Thread) :
    s.heap.Inv P ((s.caches t).objects + ((s.live : Multiset Object) + s.othersObjects t)) :=
  objects_eq s t ▸ inv.heap

theorem Inv.step (inv : s.Inv P) {action : Action Thread} (h : s.step P action = some s') :
    s'.Inv P := by
  cases action with
  | allocate t size =>
    rw [State.step] at h
    split_ifs at h
    obtain ⟨o, heap, cache, eq, heap_inv, pos⟩ :=
      Cache.allocate_spec (c := sizeClass size) (inv.heap_at t) (inv.ranges t)
    rw [eq] at h
    obtain rfl := Option.some.inj h
    refine inv.setCache ?_ pos
    rwa [← Multiset.cons_coe, Multiset.cons_add, Multiset.add_cons]
  | deallocate t o =>
    rw [State.step] at h
    split_ifs at h with live
    rw [Option.some.injEq] at h
    subst h
    refine inv.setCache (Cache.deallocate_spec ?_) ?_
    · have heap_inv := inv.heap_at t
      rwa [Multiset.coe_eq_coe.mpr (List.perm_cons_erase live), ← Multiset.cons_coe,
        Multiset.cons_add, Multiset.add_cons] at heap_inv
    · rw [Cache.RangesPos, Cache.deallocate_ranges.1]
      exact inv.ranges t
  | processObjectLog t =>
    obtain rfl := Option.some.inj h
    exact inv.setCache (Cache.processObjectLog_spec (inv.heap_at t)) (inv.ranges t)
  | scavengeObject t c =>
    obtain ⟨result, eq, rfl⟩ := Option.map_eq_some_iff.mp h
    obtain ⟨heap_inv, ranges⟩ := Cache.scavengeObject_spec (inv.heap_at t) eq
    refine inv.setCache heap_inv ?_
    rw [Cache.RangesPos, ranges]
    exact inv.ranges t
  | scavengeRange t c =>
    obtain ⟨cache, eq, rfl⟩ := Option.map_eq_some_iff.mp h
    obtain ⟨objects, pos⟩ := Cache.scavengeRange_spec (inv.ranges t) eq
    refine inv.setCache ?_ pos
    rw [objects]
    exact inv.heap_at t
  | clear t c =>
    rw [State.step] at h
    split_ifs at h with zero
    obtain rfl := Option.some.inj h
    refine inv.setCache ?_ (inv.ranges t)
    have objects := (s.caches t).setAllocator_objects c .null
    rw [BumpAllocator.objects_of_remaining_eq_zero zero.1,
      BumpAllocator.objects_of_remaining_eq_zero rfl, add_zero, add_zero] at objects
    rw [objects]
    exact inv.heap_at t
  | beginScavengePage k =>
    obtain rfl := Option.some.inj h
    exact ⟨inv.heap.scavengePage Heap.moves_beginScavengePage, inv.ranges⟩
  | endScavengePage k page =>
    obtain rfl := Option.some.inj h
    exact ⟨inv.heap.scavengePage (Heap.moves_endScavengePage page), inv.ranges⟩

theorem Inv.run (inv : s.Inv P) {actions : List (Action Thread)}
    (h : s.run P actions = some s') : s'.Inv P :=
  Lib.Runs.run_invariant (fun inv step => inv.step step) inv h

end State

/-! ## The whole of a scavenge

`Allocator::scavenge` is a history of its thread's steps, so what holds after every history holds
after it, and at every point at which it gives up the lock. -/

namespace Cache

variable {s : Heap × Cache}

/-- The caches have the same for every class but one. -/
def SameBut (c : SizeClass) (cache cache' : Cache) : Prop :=
  ∀ d ≠ c, cache'.bumpAllocators d = cache.bumpAllocators d ∧
    cache'.bumpRangeCaches d = cache.bumpRangeCaches d

theorem SameBut.trans {a b d : Cache} (ab : SameBut c a b) (bd : SameBut c b d) : SameBut c a d :=
  fun e ne => ⟨(bd e ne).1.trans (ab e ne).1, (bd e ne).2.trans (ab e ne).2⟩

theorem sameBut_setAllocator (cache : Cache) (a : BumpAllocator) :
    SameBut c cache (cache.setAllocator c a) :=
  fun _ ne => ⟨Function.update_of_ne ne _ _, rfl⟩

theorem scavengeObject_allocators {s' : Heap × Cache}
    (eq : s.2.scavengeObject P c s.1 = some s') :
    (s'.2.bumpAllocators c).remaining + 1 = (s.2.bumpAllocators c).remaining ∧
      s'.2.bumpRangeCaches = s.2.bumpRangeCaches ∧ SameBut c s.2 s'.2 := by
  obtain ⟨⟨o, cache'⟩, bump, rfl⟩ := Option.map_eq_some_iff.mp eq
  obtain ⟨⟨o', a⟩, allocate, pair⟩ := Option.map_eq_some_iff.mp bump
  obtain ⟨rfl, rfl⟩ := Prod.mk.inj pair
  rw [SameBut, deallocate_ranges.1, deallocate_ranges.2]
  refine ⟨?_, rfl, sameBut_setAllocator _ a⟩
  have own : (s.2.setAllocator c a).bumpAllocators c = a := Function.update_self ..
  rw [own]
  exact (BumpAllocator.allocate_objects allocate).2

/-- The inner loop empties the allocator and leaves the ranges. -/
theorem drain_spec (n : Nat) (h : (s.2.bumpAllocators c).remaining = n) :
    ((drain P c n s).2.bumpAllocators c).remaining = 0 ∧
      (drain P c n s).2.bumpRangeCaches = s.2.bumpRangeCaches ∧
      SameBut c s.2 (drain P c n s).2 := by
  induction n generalizing s with
  | zero => exact ⟨h, rfl, fun _ _ => ⟨rfl, rfl⟩⟩
  | succ n ih =>
    obtain ⟨s', eq⟩ : ∃ s', s.2.scavengeObject P c s.1 = some s' := by
      simp [scavengeObject, bump, BumpAllocator.allocate, h]
    obtain ⟨one, ranges, same⟩ := scavengeObject_allocators eq
    rw [drain, eq]
    obtain ⟨zero, ranges', same'⟩ := ih (s := s') (by omega)
    exact ⟨zero, ranges'.trans ranges, same.trans same'⟩

theorem drainRanges_spec (n : Nat) (zero : (s.2.bumpAllocators c).remaining = 0)
    (h : (s.2.bumpRangeCaches c).length = n) :
    ((drainRanges P c n s).2.bumpAllocators c).remaining = 0 ∧
      (drainRanges P c n s).2.bumpRangeCaches c = [] ∧ SameBut c s.2 (drainRanges P c n s).2 := by
  induction n generalizing s with
  | zero => exact ⟨zero, List.length_eq_zero_iff.mp h, fun _ _ => ⟨rfl, rfl⟩⟩
  | succ n ih =>
    obtain ⟨range, rest, ranges⟩ := List.exists_cons_of_length_eq_add_one h
    have eq : s.2.scavengeRange c =
        some ((s.2.setRanges c rest).setAllocator c (.refill range)) := by
      simp [scavengeRange, ranges, zero]
    have popped : SameBut c s.2 ((s.2.setRanges c rest).setAllocator c (.refill range)) :=
      fun _ ne => ⟨Function.update_of_ne ne _ _, Function.update_of_ne ne _ _⟩
    rw [drainRanges, eq]
    obtain ⟨zero', ranges', same⟩ := drain_spec (P := P) (c := c)
      (s := (s.1, (s.2.setRanges c rest).setAllocator c (.refill range))) _ rfl
    obtain ⟨zero'', empty, same'⟩ := ih zero' (by
      rw [ranges']
      simpa [setAllocator, setRanges, ranges] using h)
    exact ⟨zero'', empty, (popped.trans same).trans same'⟩

/-- Nothing is left of a class. -/
def Emptied (cache : Cache) (c : SizeClass) : Prop :=
  cache.bumpAllocators c = .null ∧ cache.bumpRangeCaches c = []

theorem scavengeClass_spec (P : Platform) (s : Heap × Cache) (c : SizeClass) :
    (scavengeClass P s c).2.Emptied c ∧ SameBut c s.2 (scavengeClass P s c).2 := by
  obtain ⟨zero, -, same⟩ := drain_spec (P := P) (c := c) (s := s) _ rfl
  obtain ⟨-, empty, same'⟩ := drainRanges_spec (P := P) _ zero rfl
  exact ⟨⟨Function.update_self .., empty⟩, (same.trans same').trans (sameBut_setAllocator _ _)⟩

theorem emptied_foldl_scavengeClass (classes : List SizeClass)
    (h : c ∈ classes ∨ s.2.Emptied c) :
    (classes.foldl (scavengeClass P) s).2.Emptied c := by
  induction classes generalizing s with
  | nil => exact h.resolve_left List.not_mem_nil
  | cons d classes ih =>
    obtain ⟨own, same⟩ := scavengeClass_spec P s d
    refine ih ?_
    by_cases eq : c = d
    · exact .inr (eq ▸ own)
    · refine h.imp (fun mem => (List.mem_cons.mp mem).resolve_left eq) fun old => ?_
      rwa [Emptied, (same c eq).1, (same c eq).2]

end Cache

namespace State

variable [DecidableEq Thread] {s : State Thread} {t : Thread}

/-- Thread `t` can get from one heap and cache to another without the others. -/
def CanReach (P : Platform) (s : State Thread) (t : Thread) (a b : Heap × Cache) : Prop :=
  ∃ actions, (s.setCache t a.1 a.2).run P actions = some (s.setCache t b.1 b.2)

namespace CanReach

variable {a b d : Heap × Cache}

theorem refl (a : Heap × Cache) : s.CanReach P t a a := ⟨[], rfl⟩

theorem trans (ab : s.CanReach P t a b) (bd : s.CanReach P t b d) : s.CanReach P t a d := by
  obtain ⟨actions, run⟩ := ab
  obtain ⟨actions', run'⟩ := bd
  refine ⟨actions ++ actions', ?_⟩
  rw [State.run, Lib.Runs.run, List.foldlM_append]
  exact Option.bind_eq_some_iff.mpr ⟨_, run, run'⟩

theorem of_step (action : Action Thread)
    (step : (s.setCache t a.1 a.2).step P action = some (s.setCache t b.1 b.2)) :
    s.CanReach P t a b :=
  ⟨[action], by simp [State.run, Lib.Runs.run, step]⟩

theorem drain (c : SizeClass) (n : Nat) (a : Heap × Cache) :
    s.CanReach P t a (Cache.drain P c n a) := by
  induction n generalizing a with
  | zero => exact refl a
  | succ n ih =>
    rw [Cache.drain]
    cases eq : a.2.scavengeObject P c a.1 with
    | none => exact refl a
    | some b =>
      refine (of_step (b := b) (.scavengeObject t c) ?_).trans (ih b)
      simp [State.step, setCache, eq]

theorem drainRanges (c : SizeClass) (n : Nat) (a : Heap × Cache) :
    s.CanReach P t a (Cache.drainRanges P c n a) := by
  induction n generalizing a with
  | zero => exact refl a
  | succ n ih =>
    rw [Cache.drainRanges]
    cases eq : a.2.scavengeRange c with
    | none => exact refl a
    | some cache =>
      refine (of_step (b := (a.1, cache)) (.scavengeRange t c) ?_).trans
        ((drain c _ _).trans (ih _))
      simp [State.step, setCache, eq]

theorem scavengeClass (a : Heap × Cache) (c : SizeClass) :
    s.CanReach P t a (Cache.scavengeClass P a c) := by
  obtain ⟨b, drained⟩ : ∃ b, b = Cache.drain P c (a.2.bumpAllocators c).remaining a := ⟨_, rfl⟩
  obtain ⟨d, emptied⟩ : ∃ d, d = Cache.drainRanges P c (b.2.bumpRangeCaches c).length b :=
    ⟨_, rfl⟩
  have zero : (b.2.bumpAllocators c).remaining = 0 := drained ▸ (Cache.drain_spec _ rfl).1
  obtain ⟨zero', none, -⟩ := emptied ▸ Cache.drainRanges_spec (P := P) _ zero rfl
  have result : Cache.scavengeClass P a c = (d.1, d.2.setAllocator c .null) := by
    rw [emptied, drained, Cache.scavengeClass]
  have clear : s.CanReach P t d (Cache.scavengeClass P a c) :=
    of_step (.clear t c) (by simp [State.step, setCache, zero', none, result])
  refine (drained ▸ drain c _ a).trans (CanReach.trans ?_ clear)
  exact emptied ▸ drainRanges c _ b

end CanReach

/-- A scavenge that no other thread interrupts, as a history. It leaves the thread no memory to
allocate from. -/
theorem exists_run_scavenge (P : Platform) (s : State Thread) (t : Thread) :
    (∃ actions, s.run P actions = some (s.setCache t
      (Cache.scavenge P (s.heap, s.caches t)).1 (Cache.scavenge P (s.heap, s.caches t)).2)) ∧
    ∀ c, (Cache.scavenge P (s.heap, s.caches t)).2.bumpAllocators c = .null ∧
      (Cache.scavenge P (s.heap, s.caches t)).2.bumpRangeCaches c = [] := by
  have reach : ∀ (classes : List SizeClass) (a : Heap × Cache),
      s.CanReach P t a (classes.foldl (Cache.scavengeClass P) a) := by
    intro classes
    induction classes with
    | nil => exact CanReach.refl
    | cons c classes ih => exact fun a => (CanReach.scavengeClass a c).trans (ih _)
  have self : s.setCache t s.heap (s.caches t) = s := by simp [setCache]
  have whole := reach (List.finRange 128) (s.heap, s.caches t)
  rw [CanReach, self] at whole
  exact ⟨whole, fun c => Cache.emptied_foldl_scavengeClass _ (.inl (List.mem_finRange c))⟩

end State

/-! ## Safety -/

/-- The end of the object's memory. -/
def Object.finish (o : Object) : Nat :=
  o.address + objectSize o.sizeClass

def Object.Disjoint (o o' : Object) : Prop :=
  o.kind ≠ o'.kind ∨ o.finish ≤ o'.address ∨ o'.finish ≤ o.address

def Object.InPage (P : Platform) (o : Object) : Prop :=
  ∃ page, page * vmPageSize P ≤ o.address ∧ o.finish ≤ (page + 1) * vmPageSize P

namespace PageHeap

variable {h : PageHeap} {o o' : Object}

theorem Placed.inPage (placed : h.Placed P o) : o.InPage P := by
  obtain ⟨page, n, -, address, fits⟩ := placed
  refine ⟨page, by omega, ?_⟩
  rw [Nat.succ_mul] at fits ⊢
  rw [Object.finish, address]
  omega

/-- Different objects on the grids of their pages do not overlap. -/
theorem Placed.disjoint (placed : h.Placed P o) (placed' : h.Placed P o')
    (ne : o ≠ o') : o.Disjoint o' := by
  obtain ⟨page, n, cls, address, fits⟩ := placed
  obtain ⟨page', n', cls', address', fits'⟩ := placed'
  rw [Nat.succ_mul] at fits fits'
  refine .inr ?_
  simp only [Object.finish, address, address']
  rcases Nat.lt_trichotomy page page' with lt | rfl | gt
  · have := Nat.mul_le_mul_right (vmPageSize P) (Nat.succ_le_of_lt lt)
    rw [Nat.succ_mul] at this
    omega
  · -- One page, so one class and one grid.
    have eq : o.sizeClass = o'.sizeClass := cls.symm.trans cls'
    rw [eq] at address ⊢
    have numbers : n ≠ n' := by
      rintro rfl
      refine ne ?_
      cases o
      cases o'
      simp_all
    rcases Nat.lt_or_gt_of_ne numbers with lt | gt
    · have := Nat.mul_le_mul_right (objectSize o'.sizeClass) (Nat.succ_le_of_lt lt)
      rw [Nat.succ_mul] at this
      omega
    · have := Nat.mul_le_mul_right (objectSize o'.sizeClass) (Nat.succ_le_of_lt gt)
      rw [Nat.succ_mul] at this
      omega
  · have := Nat.mul_le_mul_right (vmPageSize P) (Nat.succ_le_of_lt gt)
    rw [Nat.succ_mul] at this
    omega

end PageHeap

namespace Heap

variable {h : Heap} {objects : Multiset Object} {o o' : Object}

theorem Inv.mem_filter (ho : o ∈ objects) : o ∈ objects.filter (·.kind = o.kind) :=
  Multiset.mem_filter.mpr ⟨ho, rfl⟩

theorem Inv.nodup (inv : h.Inv P objects) : objects.Nodup := by
  rw [Multiset.nodup_iff_count_le_one]
  intro o
  rw [← Multiset.count_filter_of_pos (p := fun x : Object => x.kind = o.kind) rfl]
  exact Multiset.nodup_iff_count_le_one.mp (inv o.kind).nodup o

theorem Inv.disjoint (inv : h.Inv P objects) (ho : o ∈ objects) (ho' : o' ∈ objects)
    (ne : o ≠ o') : o.Disjoint o' := by
  by_cases kinds : o.kind = o'.kind
  · have placed := (inv o.kind).placed o (mem_filter ho)
    rw [kinds] at placed
    exact placed.disjoint ((inv o'.kind).placed o' (mem_filter ho')) ne
  · exact .inl kinds

end Heap

/-- After every history the counts are those of the objects not yet freed, these lie inside their
pages and do not overlap, and the next refill, of whatever class, pushes a number of ranges that
the cache can hold and pop from. -/
theorem run_counts_disjoint_refill [Fintype Thread] [DecidableEq Thread] (P : Platform)
    (actions : List (Action Thread)) (s : State Thread)
    (history : State.init.run P actions = some s) :
    (∀ k l, (s.heap.pageHeap k).lineRefCount l =
      s.objects.countP fun o => o.kind = k ∧ o.line = l) ∧
    (∀ k p, (s.heap.pageHeap k).pageRefCount p =
      ((Finset.range (lineCount P k)).filter fun i =>
        (s.heap.pageHeap k).lineRefCount (p * lineCount P k + i) ≠ 0).card) ∧
    s.objects.Nodup ∧
    (∀ o ∈ s.objects, ∀ o' ∈ s.objects, o ≠ o' → o.Disjoint o') ∧
    (∀ o ∈ s.objects, o.InPage P) ∧
    (∀ c, ∃ ranges heap, s.heap.refillBumpRangeCache P c = some (ranges, heap) ∧
      1 ≤ ranges.length ∧ ranges.length ≤ bumpRangeCacheCapacity P) := by
  have inv := (State.inv_init.run history).heap
  refine ⟨fun k l => ?_, fun k => (inv k).page, inv.nodup, ?_, ?_, fun c => ?_⟩
  · rw [(inv k).line, Multiset.countP_filter]
    simp only [and_comm]
  · exact fun o ho o' ho' ne => inv.disjoint ho ho' ne
  · exact fun o ho => ((inv o.kind).placed o (Heap.Inv.mem_filter ho)).inPage
  · obtain ⟨ranges, heap, eq, -, one, capacity, -⟩ := inv.refillBumpRangeCache c
    exact ⟨ranges, heap, eq, one, capacity⟩

/-- Two threads: one allocates objects of both kinds, the other frees the first of them, and both
scavenge. -/
def twoThreads : List (Action Bool) :=
  [.allocate true 24, .allocate true 24, .allocate true 600, .deallocate false ⟨2, 1044480⟩,
    .processObjectLog false, .scavengeObject true 2]

theorem twoThreads_counts_disjoint_refill :
    ∃ s, State.init.run .other twoThreads = some s ∧ s.live.length = 2 ∧
      (∀ o ∈ s.objects, ∀ o' ∈ s.objects, o ≠ o' → o.Disjoint o') ∧
      ∀ o ∈ s.objects, o.InPage .other := by
  have two : (State.init.run .other twoThreads).map (·.live.length) = some 2 := by decide +kernel
  obtain ⟨s, eq, length⟩ := Option.map_eq_some_iff.mp two
  have safe := run_counts_disjoint_refill .other twoThreads s eq
  exact ⟨s, eq, length, safe.2.2.2.1, safe.2.2.2.2.1⟩

end Odyssey.Bmalloc
