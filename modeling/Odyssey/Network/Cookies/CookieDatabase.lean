import Odyssey.Network.Cookies.CookieCounter

/-!
# The cookie database

The backing store keeps the cookies that are no session cookies in a table. Its primary key are the
scheme, the host, the path and the name. Changes are queued, and are sent at once unless cookies are
not saved or a private window is open; they then stay in the queue.
-/

namespace Odyssey.Network.Cookies

open WTF

/-- The columns of the primary key agree. -/
def samePrimaryKey (a b : ParsedCookie) : Bool :=
  a.protocol == b.protocol && a.domain == b.domain && a.path == b.path && a.name == b.name

/-- A row of the table is the cookie that is made of it. -/
structure CookieDatabase where
  isOpen : Bool
  rows : List ParsedCookie
  changedCookies : List BackingStoreRequest

namespace CookieDatabase

open SyncedManager (fromDatabase)

/-- `INSERT OR REPLACE`. -/
def insertRow (c : ParsedCookie) (rows : List ParsedCookie) : List ParsedCookie :=
  rows.filter (fun row => !samePrimaryKey c row) ++ [fromDatabase c]

/-- The rows that `UPDATE` changes. -/
def isUpdated (c row : ParsedCookie) : Bool :=
  row.name == c.name && row.domain == c.domain && row.path == c.path

/-- `UPDATE`, which fails if two rows would get the same primary key. -/
def updateRows (c : ParsedCookie) (rows : List ParsedCookie) : List ParsedCookie :=
  if 1 < rows.countP (isUpdated c) then rows
  else rows.map fun row => if isUpdated c row then fromDatabase c else row

/-- `DELETE`. -/
def deleteRow (c : ParsedCookie) (rows : List ParsedCookie) : List ParsedCookie :=
  rows.filter fun row => !samePrimaryKey c row

def execute (rows : List ParsedCookie) : BackingStoreRequest → List ParsedCookie
  | .insert c => insertRow c rows
  | .update c => updateRows c rows
  | .remove c => deleteRow c rows

/-- `saves` says that cookies are saved and that no private window is open. -/
def sendChangesToDatabase (saves : Bool) (db : CookieDatabase) : CookieDatabase :=
  if !db.isOpen || !saves then db
  else { db with rows := db.changedCookies.foldl execute db.rows, changedCookies := [] }

def addToChangeQueue (saves : Bool) (db : CookieDatabase) (request : BackingStoreRequest) :
    CookieDatabase :=
  sendChangesToDatabase saves { db with changedCookies := db.changedCookies ++ [request] }

def removeAll (saves : Bool) (db : CookieDatabase) : CookieDatabase :=
  if !db.isOpen || !saves then db else { db with rows := [], changedCookies := [] }

/-- The cookies with the earliest access come first if there is a limit. -/
def getCookiesFromDatabase (limit : Nat) (db : CookieDatabase) : List ParsedCookie :=
  if !db.isOpen then []
  else if limit = 0 then db.rows
  else (db.rows.insertionSort fun a b => a.lastAccessed ≤ b.lastAccessed).take limit

/-! ## Deleting rows -/

/-- The requests are executed at once while cookies are saved. -/
theorem foldl_addToChangeQueue {db : CookieDatabase} (isOpen : db.isOpen = true)
    (sent : db.changedCookies = []) (requests : List BackingStoreRequest) :
    requests.foldl (addToChangeQueue true) db =
      { db with rows := requests.foldl execute db.rows } := by
  induction requests generalizing db with
  | nil => rfl
  | cons request requests ih =>
    have executed : db.addToChangeQueue true request =
        { db with rows := execute db.rows request } := by
      simp [addToChangeQueue, sendChangesToDatabase, isOpen, sent]
    rw [List.foldl_cons, executed]
    exact ih isOpen sent

end CookieDatabase

end Odyssey.Network.Cookies
