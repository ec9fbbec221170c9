import Odyssey.Lib.Runs
import Odyssey.Network.DiskCache.CurlCacheManager

/-!
# The URLs of the disk cache

The list of the URLs in the order of their use and the index hold the same URLs, as long as every
response that is read from the cache belongs to an entry whose content can be read: the URL is put
into the list even when the entry has just been removed.
-/
namespace Odyssey.Network.DiskCache.CurlCacheManager

open WTF Lib

variable {Job : Type} {env : Environment} {m : CurlCacheManager Job} {url : Text}

/-- The list and the index hold the same URLs. -/
structure SameURLs (m : CurlCacheManager Job) : Prop where
  nodup : m.lruEntryList.Nodup
  mem_iff : ∀ url, url ∈ m.lruEntryList ↔ url ∈ m.index

/-! ## What the operations do to the list and the index -/

@[simp] theorem disabled_invalidateCacheEntry :
    (m.invalidateCacheEntry env url).disabled = m.disabled := by
  unfold invalidateCacheEntry
  split_ifs
  · rfl
  · split <;> rfl

theorem lruEntryList_invalidateCacheEntry (enabled : m.disabled = false) :
    (m.invalidateCacheEntry env url).lruEntryList = m.lruEntryList.erase url := by
  unfold invalidateCacheEntry
  rw [if_neg (by rw [enabled]; exact Bool.false_ne_true)]
  split <;> rfl

theorem lookup_invalidateCacheEntry (enabled : m.disabled = false) (other : Text) :
    (m.invalidateCacheEntry env url).index.lookup other =
      if other = url then none else m.index.lookup other := by
  unfold invalidateCacheEntry
  rw [if_neg (by rw [enabled]; exact Bool.false_ne_true)]
  split
  · split_ifs with eq
    · rwa [eq]
    · rfl
  · split_ifs with eq
    · rw [eq]
      exact AList.lookup_erase url m.index
    · exact AList.lookup_erase_ne eq

theorem mem_index_iff {index : AList fun _ : Text => CurlCacheEntry Job} :
    url ∈ index ↔ ∃ e, index.lookup url = some e := by
  rw [← AList.lookup_isSome, Option.isSome_iff_exists]

theorem mem_invalidateCacheEntry (enabled : m.disabled = false) (other : Text) :
    other ∈ (m.invalidateCacheEntry env url).index ↔ other ≠ url ∧ other ∈ m.index := by
  rw [mem_index_iff, mem_index_iff, lookup_invalidateCacheEntry enabled]
  split_ifs with eq
  · simp [eq]
  · simp [eq]

theorem SameURLs.invalidateCacheEntry (same : SameURLs m) (url : Text) :
    SameURLs (m.invalidateCacheEntry env url) := by
  by_cases disabled : m.disabled = true
  · rw [CurlCacheManager.invalidateCacheEntry, if_pos disabled]
    exact same
  · have enabled := Bool.not_eq_true _ ▸ disabled
    constructor
    · rw [lruEntryList_invalidateCacheEntry enabled]
      exact same.nodup.erase url
    · intro other
      rw [lruEntryList_invalidateCacheEntry enabled, mem_invalidateCacheEntry enabled,
        same.nodup.mem_erase_iff, same.mem_iff]

/-- What is true of every manager in which an entry is invalidated stays true. -/
theorem makeRoom_induction {P : CurlCacheManager Job → Prop}
    (step : ∀ m url, P m → P (m.invalidateCacheEntry env url)) (count : Nat) :
    ∀ m, P m → P (makeRoom env count m) := by
  induction count with
  | zero => exact fun m h => h
  | succ count ih =>
    intro m h
    rw [makeRoom]
    split_ifs
    · split
      · exact h
      · exact ih _ (step m _ h)
    · exact h

theorem makeRoomForNewEntry_induction {P : CurlCacheManager Job → Prop}
    (step : ∀ m url, P m → P (m.invalidateCacheEntry env url)) (h : P m) :
    P (m.makeRoomForNewEntry env) := by
  unfold makeRoomForNewEntry
  split_ifs
  · exact h
  · exact makeRoom_induction step _ m h

/-- Room is made until the limit is kept or nothing is left. -/
theorem le_limit_makeRoom (count : Nat) :
    ∀ m : CurlCacheManager Job, m.disabled = false → m.lruEntryList.length ≤ count →
      (makeRoom env count m).currentStorageSize ≤ (makeRoom env count m).storageSizeLimit ∨
        (makeRoom env count m).lruEntryList = [] := by
  induction count with
  | zero => exact fun m _ le => .inr (List.eq_nil_of_length_eq_zero (Nat.le_zero.mp le))
  | succ count ih =>
    intro m enabled le
    rw [makeRoom]
    split_ifs with exceeds
    · cases last : m.lruEntryList.getLast? with
      | none => exact .inr (List.getLast?_eq_none_iff.mp last)
      | some url =>
        refine ih _ (by rw [disabled_invalidateCacheEntry, enabled]) ?_
        rw [lruEntryList_invalidateCacheEntry enabled,
          List.length_erase_of_mem (List.mem_of_getLast? last)]
        omega
    · exact .inl (Nat.le_of_not_lt exceeds)

theorem le_limit_makeRoomForNewEntry (enabled : m.disabled = false) :
    (m.makeRoomForNewEntry env).currentStorageSize ≤ (m.makeRoomForNewEntry env).storageSizeLimit ∨
      (m.makeRoomForNewEntry env).lruEntryList = [] := by
  rw [makeRoomForNewEntry, if_neg (by rw [enabled]; exact Bool.false_ne_true)]
  exact le_limit_makeRoom _ m enabled le_rfl

theorem SameURLs.makeRoomForNewEntry (same : SameURLs m) : SameURLs (m.makeRoomForNewEntry env) :=
  makeRoomForNewEntry_induction (fun _ url h => h.invalidateCacheEntry url) same

/-- The files and the size do not matter. -/
theorem SameURLs.withFiles (same : SameURLs m) (size : Nat) (files : FileSystem) :
    SameURLs { m with currentStorageSize := size, files } :=
  ⟨same.nodup, same.mem_iff⟩

theorem mem_prependOrMoveToFirst {list : List Text} (nodup : list.Nodup) (other : Text) :
    other ∈ prependOrMoveToFirst url list ↔ other = url ∨ other ∈ list := by
  rw [prependOrMoveToFirst, List.mem_cons, nodup.mem_erase_iff]
  by_cases eq : other = url <;> simp [eq]

theorem nodup_prependOrMoveToFirst {list : List Text} (nodup : list.Nodup) :
    (prependOrMoveToFirst url list).Nodup :=
  List.nodup_cons.mpr ⟨fun mem => (nodup.mem_erase_iff.mp mem).1 rfl, nodup.erase url⟩

/-- A URL of the index is moved to the front. -/
theorem SameURLs.touch (same : SameURLs m) (mem : url ∈ m.index) : SameURLs (m.touch url) := by
  refine ⟨nodup_prependOrMoveToFirst same.nodup, fun other => ?_⟩
  rw [CurlCacheManager.touch, mem_prependOrMoveToFirst same.nodup, same.mem_iff]
  exact ⟨fun h => h.elim (fun eq => eq ▸ mem) id, .inr⟩

theorem SameURLs.touch_iff (same : SameURLs m) : SameURLs (m.touch url) ↔ url ∈ m.index := by
  refine ⟨fun h => ?_, same.touch⟩
  exact (h.mem_iff url).mp ((mem_prependOrMoveToFirst same.nodup url).mpr (.inl rfl))

theorem SameURLs.setEntry (same : SameURLs m) (mem : url ∈ m.index) (e : CurlCacheEntry Job)
    (files : FileSystem) : SameURLs (m.setEntry url e files) := by
  refine ⟨same.nodup, fun other => ?_⟩
  rw [CurlCacheManager.setEntry, AList.mem_insert, same.mem_iff]
  exact ⟨.inr, fun h => h.elim (fun eq => eq ▸ mem) id⟩

/-- A new entry comes into the list and the index. -/
theorem SameURLs.touch_setEntry (same : SameURLs m) (e : CurlCacheEntry Job) (files : FileSystem) :
    SameURLs ((m.touch url).setEntry url e files) := by
  refine ⟨nodup_prependOrMoveToFirst same.nodup, fun other => ?_⟩
  rw [CurlCacheManager.setEntry, AList.mem_insert]
  exact (mem_prependOrMoveToFirst same.nodup other).trans (or_congr_right (same.mem_iff other))

theorem mem_of_lookup {e : CurlCacheEntry Job} (eq : m.index.lookup url = some e) : url ∈ m.index :=
  mem_index_iff.mpr ⟨e, eq⟩

/-! ## Steps -/

theorem SameURLs.removeCacheEntryClient [DecidableEq Job] (same : SameURLs m) (job : Job) :
    SameURLs (m.removeCacheEntryClient url job) := by
  unfold CurlCacheManager.removeCacheEntryClient
  split_ifs
  · exact same
  · split
    · exact same
    next e eq => exact same.setEntry (mem_of_lookup eq) _ _

theorem SameURLs.addCacheEntryClient [DecidableEq Job] (same : SameURLs m) (job : Job) :
    SameURLs (m.addCacheEntryClient url job) := by
  unfold CurlCacheManager.addCacheEntryClient
  split_ifs
  · exact same
  · split
    · exact same
    next e eq => exact same.setEntry (mem_of_lookup eq) _ _

theorem SameURLs.saveResponseHeaders (same : SameURLs m) (response : Response) :
    SameURLs (m.saveResponseHeaders env url response) := by
  unfold CurlCacheManager.saveResponseHeaders
  split
  · exact same
  · dsimp only
    split_ifs
    · exact same.withFiles _ _
    · exact (same.withFiles _ _).invalidateCacheEntry url

theorem SameURLs.storeResponse (same : SameURLs m) (now : ℚ) (job : Job) (response : Response) :
    SameURLs (m.storeResponse env now job url response) := by
  unfold CurlCacheManager.storeResponse
  dsimp only
  split_ifs
  · exact ((same.invalidateCacheEntry url).touch_setEntry _ _).saveResponseHeaders response
  · exact (same.invalidateCacheEntry url).withFiles _ _

theorem SameURLs.loadEntry (same : SameURLs m) (url : Text) : SameURLs (m.loadEntry env url) := by
  unfold CurlCacheManager.loadEntry
  dsimp only
  split_ifs
  · exact (same.withFiles _ _).makeRoomForNewEntry.touch_setEntry _ _
  · exact same.withFiles _ _

theorem SameURLs.loadIndex (same : SameURLs m) (content : Option Text) :
    SameURLs (m.loadIndex env content) := by
  unfold CurlCacheManager.loadIndex
  split_ifs
  · exact same
  · split
    · exact same
    next content =>
      generalize indexURLs content = urls
      clear * - same
      induction urls generalizing m with
      | nil => exact same
      | cons url urls ih => exact ih (same.loadEntry url)

theorem SameURLs.didReceiveData [DecidableEq Job] (same : SameURLs m) (job : Job) (size : Nat) :
    SameURLs (m.didReceiveData env job url size) := by
  unfold CurlCacheManager.didReceiveData
  split_ifs
  · exact same
  · split
    · exact same
    next e eq =>
      have mem := mem_of_lookup eq
      dsimp only
      split_ifs
      · exact same
      · refine (((same.setEntry mem _ _).withFiles _ _).touch ?_).makeRoomForNewEntry
        exact (AList.mem_insert _).mpr (.inl rfl)
      · exact (same.setEntry mem _ _).invalidateCacheEntry url

theorem SameURLs.didFinishLoading (same : SameURLs m) : SameURLs (m.didFinishLoading env url) := by
  unfold CurlCacheManager.didFinishLoading
  split_ifs
  · exact same
  · split
    · exact same
    next e eq => exact same.setEntry (mem_of_lookup eq) _ _

theorem SameURLs.isCached (same : SameURLs m) (now : ℚ) : SameURLs (m.isCached env now url).2 := by
  unfold CurlCacheManager.isCached
  split_ifs
  · exact same
  · split
    · exact same
    next e eq =>
      dsimp only
      split_ifs
      · exact same.setEntry (mem_of_lookup eq) _ _
      · exact (same.setEntry (mem_of_lookup eq) _ _).invalidateCacheEntry url

/-- A response that is read from the cache belongs to an entry whose content can be read. -/
def Readable (env : Environment) (m : CurlCacheManager Job) : Op Job → Prop
  | .didReceiveResponse _ _ cancelled url response =>
    m.disabled = true ∨ cancelled = true ∨ response.isFromDiskCache = false ∨
      ∃ e, m.index.lookup url = some e ∧ (e.readCachedData env.outcomes m.files).1 = true
  | _ => True

theorem lookup_removeCacheEntryClient [DecidableEq Job] (enabled : m.disabled = false) (job : Job) :
    (m.removeCacheEntryClient url job).index.lookup url =
      (m.index.lookup url).map (·.removeClient job) := by
  unfold removeCacheEntryClient
  rw [if_neg (by rw [enabled]; exact Bool.false_ne_true)]
  split
  next eq => rw [eq, Option.map_none]
  next e eq => rw [eq, Option.map_some, setEntry, AList.lookup_insert]

@[simp] theorem files_removeCacheEntryClient [DecidableEq Job] (job : Job) :
    (m.removeCacheEntryClient url job).files = m.files := by
  unfold removeCacheEntryClient
  split_ifs
  · rfl
  · split <;> rfl

@[simp] theorem disabled_removeCacheEntryClient [DecidableEq Job] (job : Job) :
    (m.removeCacheEntryClient url job).disabled = m.disabled := by
  unfold removeCacheEntryClient
  split_ifs
  · rfl
  · split <;> rfl

theorem sameURLs_readCachedData_touch_iff (same : SameURLs m) (enabled : m.disabled = false) :
    SameURLs ((m.readCachedData env url).touch url) ↔
      ∃ e, m.index.lookup url = some e ∧ (e.readCachedData env.outcomes m.files).1 = true := by
  unfold CurlCacheManager.readCachedData
  split
  next eq =>
    rw [same.touch_iff, mem_index_iff, eq]
    simp
  next e eq =>
    have touched :
      SameURLs { m.touch url with files := (e.readCachedData env.outcomes m.files).2 } :=
      (same.touch (mem_of_lookup eq)).withFiles _ _
    dsimp only
    split_ifs with read
    · exact ⟨fun _ => ⟨e, eq, read⟩, fun _ => touched.touch (mem_of_lookup (m := m.touch url) eq)⟩
    · rw [(touched.invalidateCacheEntry url).touch_iff]
      refine ⟨fun mem => absurd rfl ((mem_invalidateCacheEntry (by exact enabled) url).mp mem).1,
        ?_⟩
      rintro ⟨e', eq', read'⟩
      rw [eq, Option.some.injEq] at eq'
      exact absurd (eq' ▸ read') read

/-- One step keeps the URLs together if and only if it meets the condition. -/
theorem SameURLs.step_iff [DecidableEq Job] (same : SameURLs m) (op : Op Job) :
    SameURLs (m.step env op) ↔ Readable env m op := by
  cases op with
  | didReceiveResponse now job cancelled url response =>
    simp only [CurlCacheManager.step, Readable]
    unfold CurlCacheManager.didReceiveResponse
    dsimp only
    split_ifs with off fromCache ok busy
    · rw [Bool.or_eq_true] at off
      exact iff_of_true same (off.imp_right .inl)
    all_goals
      rw [Bool.or_eq_true, not_or, Bool.not_eq_true, Bool.not_eq_true] at off
      have without := @SameURLs.removeCacheEntryClient _ _ url _ same job
    · rw [sameURLs_readCachedData_touch_iff without (by simpa using off.1),
        lookup_removeCacheEntryClient off.1, files_removeCacheEntryClient, off.1, off.2, fromCache]
      simp only [Bool.false_eq_true, false_or, Option.map_eq_some_iff, Bool.true_eq_false]
      constructor
      · rintro ⟨e', ⟨e, eq, rfl⟩, read⟩
        exact ⟨e, eq, read⟩
      · rintro ⟨e, eq, read⟩
        exact ⟨_, ⟨e, eq, rfl⟩, read⟩
    all_goals refine iff_of_true ?_ (.inr (.inr (.inl (Bool.not_eq_true _ ▸ fromCache))))
    · exact without
    · exact without.storeResponse now job response
    · exact without.invalidateCacheEntry url
  | didReceiveData job url size => exact iff_of_true (same.didReceiveData job size) trivial
  | didFinishLoading url => exact iff_of_true same.didFinishLoading trivial
  | didFail url => exact iff_of_true (same.invalidateCacheEntry url) trivial
  | didCancel url => exact iff_of_true (same.invalidateCacheEntry url) trivial
  | isCached now url => exact iff_of_true (same.isCached now) trivial
  | loadIndex content => exact iff_of_true (same.loadIndex content) trivial
  | addCacheEntryClient url job => exact iff_of_true (same.addCacheEntryClient job) trivial
  | removeCacheEntryClient url job => exact iff_of_true (same.removeCacheEntryClient job) trivial

/-! ## Runs -/

theorem SameURLs.always_iff [DecidableEq Job] (same : SameURLs m) (ops : List (Op Job)) :
    Runs.Always (steps env) SameURLs m ops ↔ Runs.Every (steps env) (Readable env) m ops := by
  refine Runs.always_iff_every (I := SameURLs) (L := fun _ _ => True) id
    (fun same _ readable => ⟨_, rfl, (same.step_iff _).mpr readable⟩)
    (fun same _ violated eq good => violated ?_) same (Runs.every_of_forall fun _ _ _ => trivial)
  cases eq
  exact (same.step_iff _).mp good

theorem sameURLs_init (limit : Nat) (size : FileName → Option Nat) :
    SameURLs (init limit size : CurlCacheManager Job) :=
  ⟨List.nodup_nil, fun url => iff_of_false List.not_mem_nil (AList.notMem_empty url)⟩

end Odyssey.Network.DiskCache.CurlCacheManager
