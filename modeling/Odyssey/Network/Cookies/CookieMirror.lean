import Odyssey.Network.Cookies.CookieTable

/-!
# The database as a mirror of memory

While cookies are saved, the rows that have not expired are meant to be the persistent cookies in
memory. A cookie that is added is inserted, and one that leaves is deleted by its primary key. A
cookie that replaces another one is updated by its name, host and path only, so it misses the row if
the host is written in another way, and fails if another scheme has a row of the same kind.
-/

namespace Odyssey.Network.Cookies

open WTF Lib CookieMap

namespace CookieDatabase

open CookieManager SyncedManager

/-! ## The mirror through the changes of memory -/

/-- There is room for one more cookie in the map, or the cookie is not going to be the oldest
one. -/
def StaysIn (map : CookieMap) (c : ParsedCookie) : Prop :=
  map.cookieVector.length < maxCookieCountPerHost ∨ map.oldestWith c ≠ some map.cookieVector.length

instance (map : CookieMap) (c : ParsedCookie) : Decidable (StaysIn map c) :=
  inferInstanceAs (Decidable (_ ∨ _))

/-- No persistent cookie in memory has the primary key of the cookie. -/
def Absent (cookies : List ParsedCookie) (c : ParsedCookie) : Prop :=
  ∀ c' ∈ cookies, isPersistent c' = true → primaryKey c' ≠ primaryKey c

instance (cookies : List ParsedCookie) (c : ParsedCookie) : Decidable (Absent cookies c) :=
  inferInstanceAs (Decidable (∀ c' ∈ cookies, _))

/-- A persistent cookie that is inserted has no primary key of another one and stays in its map, and
one that replaces a persistent cookie has the columns of that one, or the host of that one and the
only row of its name, host and path. -/
def Fits (cookies : List ParsedCookie) (map : CookieMap) (rows : List ParsedCookie)
    (c : ParsedCookie) : Treatment → Prop
  | .adds => c.isSession = true ∨ Absent cookies c ∧ StaysIn map c
  | .replaces old =>
    c.isSession = true ∨
      if old.isSession then Absent cookies c
      else columns old = columns c ∨ old.domain = c.domain ∧ rows.countP (isUpdated c) ≤ 1
  | _ => True

instance (cookies : List ParsedCookie) (map : CookieMap) (rows : List ParsedCookie)
    (c : ParsedCookie) : (treatment : Treatment) → Decidable (Fits cookies map rows c treatment)
  | .adds => inferInstanceAs (Decidable (_ ∨ _))
  | .replaces _ => inferInstanceAs (Decidable (_ ∨ _))
  | .ignored | .expires => isTrue trivial

namespace Mirror

variable {c old : ParsedCookie} {before after cookies rows : List ParsedCookie} {now : ℚ}

theorem removal (mirror : Mirror ((old :: cookies).filter isPersistent) rows now) :
    Mirror (cookies.filter isPersistent) ((removal old).foldl execute rows) now := by
  rw [CookieManager.removal]
  cases session : old.isSession with
  | true =>
    rw [List.filter_cons_of_neg (by simp [isPersistent, session])] at mirror
    exact mirror
  | false =>
    rw [List.filter_cons_of_pos (by simp [isPersistent, session])] at mirror
    exact mirror.delete

theorem insertion (mirror : Mirror (cookies.filter isPersistent) rows now)
    (unforced : c.isForceExpired = false) (absent : c.isSession = true ∨ Absent cookies c) :
    Mirror ((c :: cookies).filter isPersistent) ((insertion c).foldl execute rows) now := by
  rw [CookieManager.insertion]
  cases session : c.isSession with
  | true =>
    rw [List.filter_cons_of_neg (by simp [isPersistent, session])]
    exact mirror
  | false =>
    rw [List.filter_cons_of_pos (by simp [isPersistent, session])]
    have absent := absent.resolve_left (by rw [session]; decide)
    refine mirror.insert session unforced fun c' mem => ?_
    obtain ⟨mem, persistent⟩ := List.mem_filter.mp mem
    exact absent c' mem persistent

theorem replacement (mirror : Mirror ((old :: cookies).filter isPersistent) rows now)
    (unforced : c.isForceExpired = false) (key : sameKey c old = true)
    {map : CookieMap} (fits : Fits (old :: cookies) map rows c (.replaces old)) :
    Mirror ((c :: cookies).filter isPersistent) ((replacement c old).foldl execute rows) now := by
  cases session : old.isSession with
  | true =>
    -- the old cookie has no row
    have request : CookieManager.replacement c old = CookieManager.insertion c := by
      rw [CookieManager.replacement, CookieManager.insertion, session]
      cases c.isSession <;> rfl
    rw [List.filter_cons_of_neg (by simp [isPersistent, session])] at mirror
    rw [request]
    refine mirror.insertion unforced (fits.imp_right fun absent => ?_)
    rw [if_pos session] at absent
    exact fun c' mem => absent c' (List.mem_cons_of_mem _ mem)
  | false =>
    cases new : c.isSession with
    | true =>
      have request : CookieManager.replacement c old = CookieManager.removal old := by
        rw [CookieManager.replacement, CookieManager.removal, session, new]
        rfl
      rw [request, List.filter_cons_of_neg (by simp [isPersistent, new])]
      exact mirror.removal
    | false =>
      have request : CookieManager.replacement c old = [.update c] := by
        rw [CookieManager.replacement, session, new]
        rfl
      have fits := fits.resolve_left (by rw [new]; decide)
      rw [if_neg (by rw [session]; decide)] at fits
      rw [List.filter_cons_of_pos (by simp [isPersistent, session])] at mirror
      rw [request, List.filter_cons_of_pos (by simp [isPersistent, new])]
      exact mirror.update new unforced key fits

/-- A cookie that fits keeps the mirror. -/
theorem change {currentTime : ℚ} {filter : CookieFilter} {map : CookieMap} {treatment : Treatment}
    {vector rest : List ParsedCookie} {count : CookieManager → CookieManager}
    {requests : List BackingStoreRequest} {evicted : Option ParsedCookie}
    (mirror : Mirror (before.filter isPersistent) rows now)
    (change : MapChange (IsLive c currentTime) .removeFromBackingStore filter map c treatment vector
      count requests evicted)
    (perm : before.Perm (map.cookieVector ++ rest)) (perm' : after.Perm (vector ++ rest))
    (fits : Fits before map rows c treatment) :
    Mirror (after.filter isPersistent) (requests.foldl execute rows) now := by
  cases change with
  | ignored => exact mirror.perm ((perm.trans perm'.symm).filter _)
  | expires => exact mirror.perm ((perm.trans perm'.symm).filter _)
  | @removes old _ found =>
    have removed := perm.trans ((perm_eraseP found).append_right rest)
    exact (mirror.perm ((removed.trans (perm'.symm.cons old)).filter _)).removal
  | @replaces old _ live found replaced =>
    have removed := perm.trans ((perm_eraseP found).append_right rest)
    refine ((mirror.perm (removed.filter _)).replacement (Bool.or_eq_false_iff.mp live).2
      (List.find?_some found) (?_ : Fits _ map _ _ _)).perm
      ((perm'.trans (replaced.append_right rest)).symm.filter _)
    refine fits.imp_right fun fits => ?_
    split at fits
    · rw [if_pos ‹_›]
      exact fun c' mem => fits c' (removed.mem_iff.mpr mem)
    · rw [if_neg ‹_›]
      exact fits
  | adds live =>
    rw [List.append_assoc, List.singleton_append] at perm'
    exact (mirror.insertion (Bool.or_eq_false_iff.mp live).2 (fits.imp_right And.left)).perm
      ((perm'.trans (List.perm_middle.trans (perm.symm.cons c))).symm.filter _)
  | @evicts oldest _ live full ne evicted =>
    have perm : (c :: before).Perm (oldest :: after) := by
      have added := (List.perm_append_singleton c map.cookieVector).symm.trans evicted
      exact (perm.cons c).trans ((added.append_right rest).trans (perm'.symm.cons oldest))
    have unforced := (Bool.or_eq_false_iff.mp live).2
    simp only [posted, if_true]
    rw [List.foldl_append]
    cases session : c.isSession with
    | true =>
      have added := perm.filter isPersistent
      rw [List.filter_cons_of_neg (by simp [isPersistent, session])] at added
      have removed := (mirror.perm added).removal
      rw [CookieManager.insertion, if_pos session]
      exact removed
    | false =>
      obtain ⟨absent, stays⟩ := fits.resolve_left (by rw [session]; decide)
      have mem : c ∈ after := by
        rcases List.mem_cons.mp (perm.mem_iff.mp List.mem_cons_self) with eq | mem
        · exact absurd eq.symm (ne (stays.resolve_left (Nat.not_lt.mpr full)))
        · exact mem
      obtain ⟨first, last, rfl⟩ := List.append_of_mem mem
      have others : before.Perm (oldest :: (first ++ last)) := by
        refine List.Perm.cons_inv (perm.trans (.trans ?_ (.swap c oldest _)))
        exact List.perm_middle.cons oldest
      refine
        ((mirror.perm (others.filter _)).removal.insertion unforced (.inr fun c' mem' => ?_)).perm
        (List.perm_middle.symm.filter _)
      exact absent c' (others.mem_iff.mpr (List.mem_cons_of_mem _ mem'))

/-- A lookup keeps the mirror. -/
theorem lookup {m : CookieManager} (mirror : Mirror (m.cookies.filter isPersistent) rows now)
    (p : Platform) (url : URL) (filter : CookieFilter) :
    Mirror ((m.getRawCookies p url filter now).2.cookies.filter isPersistent) rows now := by
  have exists_iff (cookies : List ParsedCookie) (c : ParsedCookie) :
      (∃ c' ∈ cookies.filter isPersistent, columns c' = columns c) ↔
        0 < cookies.countP fun c' => isPersistent c' && columns c' == columns c := by
    simp [List.countP_pos_iff, and_assoc]
  obtain ⟨expired, all, counts, -⟩ := m.expires_getRawCookies p url filter now
  refine mirror.of_columns ?_ (fun c mem => ?_) (fun c mem live => ?_)
  · have nodup := mirror.nodup
    rw [List.nodup_iff_count_le_one] at nodup ⊢
    intro key
    have before := nodup key
    rw [List.count, List.countP_map, List.countP_filter] at before ⊢
    have total := counts (fun c => ((· == key) ∘ primaryKey) c && isPersistent c) fun _ _ => rfl
    omega
  · have total := counts (fun c' => isPersistent c' && columns c' == columns c) fun _ _ => rfl
    have after := (exists_iff _ c).mp ⟨c, mem, rfl⟩
    exact (exists_iff _ c).mpr (by omega)
  · have total := counts (fun c' => isPersistent c' && columns c' == columns c) fun _ _ => rfl
    have before := (exists_iff _ c).mp ⟨c, mem, rfl⟩
    have kept : expired.countP (fun c' => isPersistent c' && columns c' == columns c) = 0 := by
      refine List.countP_eq_zero.mpr fun c' gone both => ?_
      rw [Bool.and_eq_true, beq_iff_eq] at both
      have := all c' gone
      rw [hasExpired_of_columns both.2, live] at this
      cases this
    exact (exists_iff _ c).mpr (by omega)

end Mirror

end CookieDatabase

/-! ## Runs -/

/-- The manager with its database, and the time when the clock was last read. -/
structure ClockedStorage extends CookieStorage where
  clock : ℚ

/-- What the calls of the manager are made of in normal mode after the database has been loaded. -/
inductive NormalTurn where
  | treat (c : ParsedCookie) (filter : CookieFilter) (currentTime : ℚ)
  | lookup (url : URL) (filter : CookieFilter) (currentTime : ℚ)
  | removeAll

namespace ClockedStorage

open CookieManager CookieDatabase SyncedManager

/-- One row in the loop of `getBackingStoreCookies`. -/
def loadRow (currentTime : ℚ) (s : ClockedStorage) (row : ParsedCookie) : ClockedStorage :=
  ⟨s.treat (fromDatabase row) .backingStoreCookieEntry .withHttpOnlyCookies currentTime,
    currentTime⟩

/-- `getBackingStoreCookies`. -/
def getBackingStoreCookies (s : ClockedStorage) (currentTime : ℚ) : ClockedStorage :=
  (s.database.getCookiesFromDatabase 0).foldl (loadRow currentTime) s

def step (p : Platform) (s : ClockedStorage) : NormalTurn → Option ClockedStorage
  | .treat c filter currentTime =>
    some ⟨s.treat c .removeFromBackingStore filter currentTime, currentTime⟩
  | .lookup url filter currentTime =>
    some ⟨{ s.toCookieStorage with
      toCookieManager := (s.getRawCookies p url filter currentTime).2 }, currentTime⟩
  | .removeAll => some { s with toCookieStorage := s.removeAllCookies }

/-- The rows that have not expired are the persistent cookies in memory that have not expired. -/
def Mirrors (s : ClockedStorage) : Prop :=
  ((s.database.rows.filter fun row => !row.hasExpired s.clock).map columns).Perm
    (((s.cookies.filter isPersistent).filter fun c => !c.hasExpired s.clock).map columns)

/-- The clock does not go back. -/
def Later (s : ClockedStorage) : NormalTurn → Prop
  | .treat _ _ currentTime => s.clock ≤ currentTime
  | .lookup _ _ currentTime => s.clock ≤ currentTime
  | .removeAll => True

/-- A row has expired, or has a place of its own in memory and room in its map. -/
def IsLoaded (map : CookieMap) : Treatment → Prop
  | .expires => True
  | .adds => map.cookieVector.length < maxCookieCountPerHost
  | _ => False

def HasRoom (currentTime : ℚ) (s : ClockedStorage) (row : ParsedCookie) : Prop :=
  IsLoaded (s.mapFor (fromDatabase row))
    (s.treatment (fromDatabase row) .withHttpOnlyCookies currentTime)

def FitsIn (s : ClockedStorage) : NormalTurn → Prop
  | .treat c filter currentTime =>
    Fits s.cookies (s.mapFor c) s.database.rows c (s.treatment c filter currentTime)
  | _ => True

/-- The manager has no cookies, and all changes have been sent to the database. -/
structure IsFresh (s : ClockedStorage) : Prop where
  managerMap : s.managerMap = ∅
  isOpen : s.database.isOpen = true
  saves : s.saves = true
  sent : s.database.changedCookies = []
  isTable : IsTable s.database.rows

/-- The table mirrors the cookies in memory and the rows that have not been read. -/
structure InSync (s : ClockedStorage) (unread : List ParsedCookie) : Prop where
  isOpen : s.database.isOpen = true
  saves : s.saves = true
  sent : s.database.changedCookies = []
  isRow : ∀ row ∈ unread, fromDatabase row = row
  mirror : Mirror (s.cookies.filter isPersistent ++ unread) s.database.rows s.clock

variable {p : Platform} {s : ClockedStorage} {unread : List ParsedCookie} {c row : ParsedCookie}
  {currentTime : ℚ}

/-- A cookie that asks the database for some changes. -/
theorem InSync.treat {filter : CookieFilter} {policy : BackingStoreRemovalPolicy}
    {requests : List BackingStoreRequest} {rest : List ParsedCookie} (sync : s.InSync unread)
    (posted : (s.checkAndTreatCookie c policy filter currentTime).1.backingStore =
      s.backingStore ++ requests)
    (isRow : ∀ row ∈ rest, fromDatabase row = row)
    (mirror : Mirror ((s.checkAndTreatCookie c policy filter currentTime).1.cookies.filter
      isPersistent ++ rest) (requests.foldl execute s.database.rows) currentTime) :
    InSync ⟨s.treat c policy filter currentTime, currentTime⟩ rest := by
  have database : (s.treat c policy filter currentTime).database =
      { s.database with rows := requests.foldl execute s.database.rows } := by
    rw [CookieStorage.treat]
    dsimp only
    rw [posted, List.drop_left, sync.saves, foldl_addToChangeQueue sync.isOpen sync.sent]
  constructor
  · dsimp only
    rw [database]
    exact sync.isOpen
  · exact sync.saves
  · dsimp only
    rw [database]
    exact sync.sent
  · exact isRow
  · dsimp only
    rw [database]
    exact mirror

/-- One row is loaded. -/
theorem InSync.loadRow (sync : s.InSync (row :: unread)) (later : s.clock ≤ currentTime)
    (room : s.HasRoom currentTime row) : (s.loadRow currentTime row).InSync unread := by
  obtain ⟨isRow, isRows⟩ := List.forall_mem_cons.mp sync.isRow
  have mirror := (sync.mirror.later later).perm List.perm_middle
  obtain ⟨vector, count, requests, change, refills, effect⟩ :=
    s.treats_checkAndTreatCookie (fromDatabase row) .backingStoreCookieEntry .withHttpOnlyCookies
      currentTime
  obtain ⟨rest, perm, perm'⟩ := refills.perm
  refine sync.treat effect.backingStore isRows ?_
  rw [HasRoom] at room
  generalize s.treatment (fromDatabase row) .withHttpOnlyCookies currentTime = treatment at *
  generalize s.checkAndTreatCookie (fromDatabase row) .backingStoreCookieEntry .withHttpOnlyCookies
    currentTime = result at *
  obtain ⟨m', evicted⟩ := result
  dsimp only at *
  cases change with
  | ignored => exact room.elim
  | expires =>
    rw [if_pos rfl, isRow]
    exact mirror.delete.perm (((perm.trans perm'.symm).filter _).append_right unread)
  | removes ne => exact absurd rfl ne
  | replaces => exact room.elim
  | adds =>
    rw [List.append_assoc, List.singleton_append] at perm'
    have added := perm'.trans (List.perm_middle.trans (perm.symm.cons _))
    refine mirror.perm ?_
    have persistent : isPersistent (fromDatabase row) = true := rfl
    have kept := (added.symm.filter isPersistent).append_right unread
    rw [List.filter_cons_of_pos persistent, isRow] at kept
    exact kept
  | evicts _ full => exact absurd room (Nat.not_lt.mpr full)

/-- The rows are loaded one after the other. -/
theorem InSync.foldl_loadRow {rows : List ParsedCookie} (sync : s.InSync rows)
    (later : s.clock ≤ currentTime)
    (room : Runs.Every (fun s row => some (s.loadRow currentTime row)) (HasRoom currentTime) s
      rows) :
    (rows.foldl (ClockedStorage.loadRow currentTime) s).InSync [] := by
  induction rows generalizing s with
  | nil => exact sync
  | cons row rows ih => exact ih (sync.loadRow later room.1) (le_refl currentTime) (room.2 _ rfl)

theorem IsFresh.inSync (fresh : s.IsFresh) : s.InSync s.database.rows := by
  have empty : s.cookies = [] := by
    rw [CookieManager.cookies, store, fresh.managerMap]
    rfl
  refine ⟨fresh.isOpen, fresh.saves, fresh.sent, fresh.isTable.isRow, ?_⟩
  rw [empty]
  exact ⟨fresh.isTable, fresh.isTable.nodup, fun row mem => ⟨row, mem, rfl⟩,
    fun row mem _ => ⟨row, mem, rfl⟩⟩

/-- A turn that fits keeps the mirror. -/
theorem InSync.step (sync : s.InSync []) {turn : NormalTurn}
    (ok : s.Later turn ∧ s.FitsIn turn) : ∃ s', s.step p turn = some s' ∧ s'.InSync [] := by
  obtain ⟨later, fits⟩ := ok
  have mirror := sync.mirror
  rw [List.append_nil] at mirror
  cases turn with
  | treat c filter currentTime =>
    obtain ⟨vector, count, requests, change, refills, effect⟩ :=
      s.treats_checkAndTreatCookie c .removeFromBackingStore filter currentTime
    obtain ⟨rest, perm, perm'⟩ := refills.perm
    refine ⟨_, rfl, sync.treat effect.backingStore (List.forall_mem_nil _) ?_⟩
    rw [List.append_nil]
    exact (mirror.later later).change change perm perm' fits
  | lookup url filter currentTime =>
    refine ⟨_, rfl, sync.isOpen, sync.saves, sync.sent, List.forall_mem_nil _, ?_⟩
    rw [List.append_nil]
    exact (mirror.later later).lookup p url filter
  | removeAll =>
    have database : s.removeAllCookies.database =
        { s.database with rows := [], changedCookies := [] } := by
      simp [CookieStorage.removeAllCookies, removeAll, sync.isOpen, sync.saves]
    have empty : s.removeAllCookies.cookies = [] := cookies_removeAllCookies _
    refine ⟨_, rfl, ?_, sync.saves, ?_, List.forall_mem_nil _, ?_⟩
    · rw [database]
      exact sync.isOpen
    · rw [database]
    · rw [database, empty]
      exact ⟨⟨List.forall_mem_nil _, .nil⟩, .nil, List.forall_mem_nil _, List.forall_mem_nil _⟩

/-- After the database has been loaded, the table mirrors the memory through every run in which the
clock does not go back and all turns fit. -/
theorem mirrors_of_fitsIn (fresh : s.IsFresh) (later : s.clock ≤ currentTime)
    (room : Runs.Every (fun s row => some (s.loadRow currentTime row)) (HasRoom currentTime) s
      s.database.rows) {turns : List NormalTurn}
    (clock : Runs.Every (step p) Later (s.getBackingStoreCookies currentTime) turns)
    (fits : Runs.Every (step p) FitsIn (s.getBackingStoreCookies currentTime) turns) :
    Runs.Always (step p) Mirrors (s.getBackingStoreCookies currentTime) turns := by
  have loaded : (s.getBackingStoreCookies currentTime).InSync [] := by
    rw [getBackingStoreCookies, getCookiesFromDatabase, fresh.isOpen]
    exact fresh.inSync.foldl_loadRow later room
  refine Runs.always_of_every (I := fun s => s.InSync []) (fun sync => ?_)
    (fun sync ok => sync.step ok) loaded (clock.and fits)
  have mirror := sync.mirror
  rw [List.append_nil] at mirror
  exact mirror.columns_perm

instance (s : ClockedStorage) (turn : NormalTurn) : Decidable (s.Later turn) :=
  match turn with
  | .treat _ _ currentTime => inferInstanceAs (Decidable (s.clock ≤ currentTime))
  | .lookup _ _ currentTime => inferInstanceAs (Decidable (s.clock ≤ currentTime))
  | .removeAll => isTrue trivial

instance (s : ClockedStorage) (turn : NormalTurn) : Decidable (s.FitsIn turn) :=
  match turn with
  | .treat c filter currentTime => inferInstanceAs (Decidable (Fits s.cookies (s.mapFor c)
      s.database.rows c (s.treatment c filter currentTime)))
  | .lookup .. | .removeAll => isTrue trivial

instance (map : CookieMap) : (treatment : Treatment) → Decidable (IsLoaded map treatment)
  | .expires => isTrue trivial
  | .adds => inferInstanceAs (Decidable (_ < _))
  | .ignored | .replaces _ => isFalse id

instance (currentTime : ℚ) (s : ClockedStorage) (row : ParsedCookie) :
    Decidable (s.HasRoom currentTime row) :=
  inferInstanceAs (Decidable (IsLoaded _ _))

instance (s : ClockedStorage) : Decidable s.Mirrors := inferInstanceAs (Decidable (List.Perm _ _))

/-- A table with one row and an empty memory. -/
def savedStorage : ClockedStorage where
  toCookieManager := .new
  syncedWithDatabase := false
  database := ⟨true, [savedCookie], []⟩
  saves := true
  clock := 0

theorem isFresh_savedStorage : savedStorage.IsFresh where
  managerMap := rfl
  isOpen := rfl
  saves := rfl
  sent := rfl
  isTable := ⟨by decide, by decide⟩

/-- The cookie gets another value, is looked up and is removed. -/
theorem mirrors_savedCookie :
    Runs.Always (step asciiPlatform) Mirrors (savedStorage.getBackingStoreCookies 1)
      [.treat { savedCookie with value := text "2" } .withHttpOnlyCookies 2,
        .lookup (httpURL "a.b" "/") .withHttpOnlyCookies 3,
        .treat { savedCookie with isForceExpired := true } .withHttpOnlyCookies 3] :=
  mirrors_of_fitsIn isFresh_savedStorage (by decide) (by decide +kernel) (by decide +kernel)
    (by decide +kernel)

/-- A WebSocket sets a cookie of the same name, host and path; then the row of the first one can no
longer be updated. -/
theorem not_mirrors_two_schemes :
    ¬ Runs.Always (step asciiPlatform) Mirrors (savedStorage.getBackingStoreCookies 1)
      [.treat { savedCookie with protocol := text "ws" } .withHttpOnlyCookies 2,
        .treat { savedCookie with value := text "2" } .withHttpOnlyCookies 3] := by
  rintro ⟨-, s₁, eq₁, -, s₂, eq₂, mirrors⟩
  cases eq₁
  cases eq₂
  change Mirrors _ at mirrors
  revert mirrors
  decide +kernel

end ClockedStorage

end Odyssey.Network.Cookies
