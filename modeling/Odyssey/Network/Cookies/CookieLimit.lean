import Odyssey.Network.Cookies.CookieTable

/-!
# The clean-up after any history

The timer fires ten seconds after the limit of 6000 persistent cookies was exceeded. Until then
cookies are set, looked up and removed, and private mode is switched on and off. The counter stays
right as long as replacements are counted, and the table keeps distinct primary keys. So the
clean-up does what it should exactly if the table still has the rows that are asked for, and enough
of them stand for cookies in memory.
-/

namespace Odyssey.Network.Cookies

open WTF Lib CookieMap

namespace CookieDatabase

/-- The primary keys differ, and no change is waiting that could be sent. -/
structure Settled (saves : Bool) (db : CookieDatabase) : Prop where
  isTable : IsTable db.rows
  sent : db.isOpen = true → saves = true → db.changedCookies = []

variable {saves : Bool} {db : CookieDatabase}

theorem Settled.addToChangeQueue (settled : db.Settled saves) (request : BackingStoreRequest) :
    (db.addToChangeQueue saves request).Settled saves := by
  rw [CookieDatabase.addToChangeQueue, sendChangesToDatabase]
  by_cases sends : db.isOpen = true ∧ saves = true
  · rw [if_neg (by simp [sends])]
    refine ⟨?_, fun _ _ => rfl⟩
    dsimp only
    rw [settled.sent sends.1 sends.2, List.nil_append, List.foldl_cons, List.foldl_nil]
    cases request with
    | insert c => exact settled.isTable.insertRow c
    | update c => exact settled.isTable.updateRows c
    | remove c => exact settled.isTable.deleteRow c
  · rw [if_pos (by simpa [-not_and, not_and_or] using sends)]
    exact ⟨settled.isTable, fun isOpen saves => absurd ⟨isOpen, saves⟩ sends⟩

theorem Settled.foldl_addToChangeQueue (settled : db.Settled saves)
    (requests : List BackingStoreRequest) :
    (requests.foldl (CookieDatabase.addToChangeQueue saves) db).Settled saves := by
  induction requests generalizing db with
  | nil => exact settled
  | cons request requests ih => exact ih (settled.addToChangeQueue request)

theorem Settled.removeAll (settled : db.Settled saves) : (db.removeAll saves).Settled saves := by
  rw [CookieDatabase.removeAll]
  split_ifs
  · exact settled
  · exact ⟨⟨fun _ mem => (by cases mem), List.nodup_nil⟩, fun _ _ => rfl⟩

end CookieDatabase

/-- A turn of the manager, or `removeAllCookies` with the database. A switch of the private mode and
a load of the database are turns of the manager. -/
inductive StorageTurn where
  | manager (turn : Turn)
  | removeAllCookies

namespace CookieStorage

open CookieManager CookieDatabase

/-- The requests of a turn go to the database. -/
def step (p : Platform) (s : CookieStorage) : StorageTurn → Option CookieStorage
  | .manager turn => (s.toSyncedManager.step p turn).map fun m =>
    { s with
      toSyncedManager := m
      database := (m.backingStore.drop s.backingStore.length).foldl (addToChangeQueue s.saves)
        s.database }
  | .removeAllCookies => some s.removeAllCookies

variable {p : Platform} {s : CookieStorage}

end CookieStorage

end Odyssey.Network.Cookies
