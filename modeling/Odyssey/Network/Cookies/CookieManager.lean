import Mathlib.Data.List.AList
import Mathlib.Data.List.Sort
import Odyssey.Lib.Trie
import Odyssey.Network.Cookies.CookieParser

/-!
# The cookie store

A `CookieMap` holds the cookies of one domain; the maps of a scheme form a trie over the labels of
the domains, read from the right. `CookieManager` keeps the trie of every scheme. Requests to the
backing store are recorded in the order in which they are posted, and a call of the manager reads
the clock once.
-/
namespace Odyssey.Network.Cookies

open WTF Lib

inductive CookieFilter where
  | noHttpOnlyCookie
  | withHttpOnlyCookies
  deriving DecidableEq

/-! ## The cookies of one domain -/

/-- `m_oldestCookie` is given by its position in `m_cookieVector`. -/
structure CookieMap where
  cookieVector : List ParsedCookie
  oldestCookie : Option Nat

namespace CookieMap

def empty : CookieMap := ⟨[], none⟩

/-- The first cookie among `cookies`, which begin at position `i`, that was accessed before the
cookie at `best`, and so on. -/
def oldestFrom (best : Nat) (lastAccessed : ℚ) : Nat → List ParsedCookie → Nat
  | _, [] => best
  | i, c :: cookies =>
    if c.lastAccessed < lastAccessed then oldestFrom i c.lastAccessed (i + 1) cookies
    else oldestFrom best lastAccessed (i + 1) cookies

/-- `updateOldestCookie`. -/
def findOldest : List ParsedCookie → Option Nat
  | [] => none
  | c :: cookies => some (oldestFrom 0 c.lastAccessed 1 cookies)

/-- The cookies have the same name and the same path. -/
def sameKey (c c' : ParsedCookie) : Bool := c'.name == c.name && c'.path == c.path

/-- The position of the cookie with the name and the path of the given one. -/
def position (map : CookieMap) (c : ParsedCookie) : Option Nat :=
  map.cookieVector.findIdx? (sameKey c)

inductive AddResult where
  | rejected
  | replaced (old : ParsedCookie) (map : CookieMap)
  | added (map : CookieMap)

/-- The cookie accessed before all cookies of the map becomes the oldest one. -/
def oldestWith (map : CookieMap) (candidate : ParsedCookie) : Option Nat :=
  match map.oldestCookie.bind (map.cookieVector[·]?) with
  | none => some map.cookieVector.length
  | some oldest =>
    if candidate.lastAccessed < oldest.lastAccessed then some map.cookieVector.length
    else map.oldestCookie

def addOrReplaceCookie (map : CookieMap) (candidate : ParsedCookie) (filter : CookieFilter) :
    AddResult :=
  match map.position candidate with
  | some i =>
    match map.cookieVector[i]? with
    | some old =>
      if filter = .noHttpOnlyCookie ∧ old.isHttpOnly = true then .rejected
      else
        let cookies := map.cookieVector.set i candidate
        .replaced old ⟨cookies, if map.oldestCookie = some i then findOldest cookies
          else map.oldestCookie⟩
    | none => .rejected
  | none => .added ⟨map.cookieVector ++ [candidate], map.oldestWith candidate⟩

/-- The oldest cookie keeps its place among the remaining ones. -/
def removeCookieAtIndex (map : CookieMap) (i : Nat) : CookieMap :=
  let cookies := map.cookieVector.eraseIdx i
  ⟨cookies, if map.oldestCookie = some i then findOldest cookies
    else map.oldestCookie.map fun k => if i < k then k - 1 else k⟩

/-- The removed cookie and the remaining map. -/
def removeCookie (map : CookieMap) (c : ParsedCookie) (filter : CookieFilter) :
    Option (ParsedCookie × CookieMap) :=
  (map.position c).bind fun i => map.cookieVector[i]?.bind fun old =>
    if filter = .noHttpOnlyCookie ∧ old.isHttpOnly = true then none
    else some (old, map.removeCookieAtIndex i)

/-- The part of `getAllCookies` from a position on: the unexpired cookies, the remaining map and the
number of removed cookies. -/
def getAllCookiesFrom (currentTime : ℚ) :
    Nat → CookieMap → Nat → List ParsedCookie × CookieMap × Nat
  | 0, map, _ => ([], map, 0)
  | count + 1, map, i =>
    match map.cookieVector[i]? with
    | none => ([], map, 0)
    | some c =>
      if c.hasExpired currentTime then
        let (cookies, map, removed) :=
          getAllCookiesFrom currentTime count (map.removeCookieAtIndex i) i
        (cookies, map, removed + 1)
      else
        let (cookies, map, removed) := getAllCookiesFrom currentTime count map (i + 1)
        (c :: cookies, map, removed)

def getAllCookies (map : CookieMap) (currentTime : ℚ) : List ParsedCookie × CookieMap × Nat :=
  getAllCookiesFrom currentTime map.cookieVector.length map 0

/-- The search below a map without cookies is left out: the only caller has just added a cookie. -/
def removeOldestCookie (map : CookieMap) : Option (ParsedCookie × CookieMap) :=
  (map.oldestCookie.bind (map.cookieVector[·]?)).bind fun c =>
    map.removeCookie c .withHttpOnlyCookies

end CookieMap

/-- A `CookieMap` together with the maps of its subdomains. -/
abbrev CookieTree := Trie Text CookieMap

/-! ## The manager -/

inductive BackingStoreRemovalPolicy where
  | removeFromBackingStore
  | backingStoreCookieEntry
  | doNotRemoveFromBackingStore
  deriving DecidableEq

inductive BackingStoreRequest where
  | insert (c : ParsedCookie)
  | update (c : ParsedCookie)
  | remove (c : ParsedCookie)

/-- `assertionFailed` records that `removedCookie` was called while the counter was zero. -/
structure CookieManager where
  managerMap : AList fun _ : Text => CookieTree
  count : UInt16
  privateMode : Bool
  shouldDumpAllCookies : Bool
  limitTimerIsActive : Bool
  backingStore : List BackingStoreRequest
  assertionFailed : Bool

def globalMaxCookieCount : UInt16 := 6000

def maxCookieCountPerHost : Nat := 60

/-- Sorting logic is based on RFC 6265, section 5.4.2. -/
def cookieSorter (a b : ParsedCookie) : Bool :=
  if a.path.length = b.path.length then decide (a.creationTime < b.creationTime)
  else decide (b.path.length < a.path.length)

def shouldIgnoreScheme (protocol : Text) : Bool :=
  protocol == text "file" || protocol == text "local"

namespace CookieManager

def new : CookieManager := ⟨∅, 0, false, false, false, [], false⟩

def addedCookie (m : CookieManager) : CookieManager := { m with count := m.count + 1 }

def removedCookie (m : CookieManager) : CookieManager :=
  { m with count := m.count - 1, assertionFailed := m.assertionFailed || m.count == 0 }

/-- Several calls of `removedCookie`. -/
def removedCookies (m : CookieManager) (removed : Nat) : CookieManager :=
  { m with
    count := m.count - removed.toUInt16
    assertionFailed := m.assertionFailed || decide (m.count.toNat < removed) }

def post (m : CookieManager) (request : BackingStoreRequest) : CookieManager :=
  { m with backingStore := m.backingStore ++ [request] }

def setMap (m : CookieManager) (protocol : Text) (tree : CookieTree) : CookieManager :=
  { m with managerMap := m.managerMap.insert protocol tree }

def tree (m : CookieManager) (protocol : Text) : CookieTree :=
  (m.managerMap.lookup protocol).getD ⟨.empty, []⟩

/-- The labels of a domain from the right, as they are walked when a cookie is stored. -/
def domainLabels (c : ParsedCookie) : List Text :=
  if c.domainIsIPAddress then [c.domain] else (c.domain.split 46 false).reverse

/-- The trie in which the map at the end of the labels exists. An expired cookie creates no map. -/
def findOrCreateCookieMap (expired : Bool) : CookieTree → List Text → Option CookieTree
  | curMap, [] => some curMap
  | curMap, label :: labels =>
    match curMap.child label with
    | some nextMap => (findOrCreateCookieMap expired nextMap labels).map (curMap.setChild label)
    | none =>
      if expired then none
      else (findOrCreateCookieMap expired ⟨.empty, []⟩ labels).map (curMap.setChild label)

/-- The scheme whose maps a cookie goes to: secure schemes share the maps of the plain ones. -/
def storageProtocol (m : CookieManager) (protocol : Text) : Text :=
  if (m.managerMap.lookup protocol).isSome then protocol
  else if protocol = text "https" then text "http"
  else if protocol = text "wss" then text "ws"
  else protocol

/-- Session cookies are not in the backing store. -/
def postUnlessSession (m : CookieManager) (policy : BackingStoreRemovalPolicy) (c : ParsedCookie)
    (request : BackingStoreRequest) : CookieManager :=
  if policy = .removeFromBackingStore ∧ c.isSession = false then m.post request else m

/-- Start the timer for the clean-up if there are too many cookies. -/
def checkGlobalLimit (m : CookieManager) (policy : BackingStoreRemovalPolicy) : CookieManager :=
  if globalMaxCookieCount < m.count ∧ policy ≠ .doNotRemoveFromBackingStore then
    { m with limitTimerIsActive := true }
  else m

/-- `addCookieToMap` for the map at the given labels. The cookie that had to leave the map because
of the limit is returned. -/
def addCookieToMap (m : CookieManager) (protocol : Text) (labels : List Text)
    (candidate : ParsedCookie) (policy : BackingStoreRemovalPolicy) (filter : CookieFilter) :
    CookieManager × Option ParsedCookie :=
  let tree := m.tree protocol
  let put (map : CookieMap) : CookieTree := tree.alter .empty (fun _ => map) labels
  match ((tree.find labels).getD .empty).addOrReplaceCookie candidate filter with
  | .rejected => (m, none)
  | .replaced old map =>
    let m := m.setMap protocol (put map)
    if policy = .removeFromBackingStore then
      if !candidate.isSession && !old.isSession then (m.post (.update candidate), none)
      else if candidate.isSession && !old.isSession then (m.removedCookie.post (.remove old), none)
      else if !candidate.isSession && old.isSession then
        (m.addedCookie.post (.insert candidate), none)
      else (m, none)
    else (m, none)
  | .added map =>
    let m := if candidate.isSession then m else m.addedCookie
    if maxCookieCountPerHost < map.cookieVector.length then
      match map.removeOldestCookie with
      | some (oldest, map) =>
        let m := m.setMap protocol (put map)
        let m := if oldest.isSession then m else m.removedCookie
        ((m.postUnlessSession policy oldest (.remove oldest)).postUnlessSession policy candidate
          (.insert candidate), some oldest)
      | none =>
        ((m.setMap protocol (put map)).postUnlessSession policy candidate (.insert candidate), none)
    else
      (((m.setMap protocol (put map)).checkGlobalLimit policy).postUnlessSession policy candidate
        (.insert candidate), none)

/-- The manager with a map for the scheme. -/
def openMap (m : CookieManager) (protocol : Text) : CookieManager :=
  if (m.managerMap.lookup protocol).isSome then m else m.setMap protocol ⟨.empty, []⟩

/-- Remove the cookie that an expired one stands for from the map at the given labels. -/
def expireCookie (m : CookieManager) (protocol : Text) (labels : List Text)
    (candidate : ParsedCookie) (policy : BackingStoreRemovalPolicy) (filter : CookieFilter) :
    CookieManager :=
  let tree := m.tree protocol
  if policy = .backingStoreCookieEntry then m.post (.remove candidate)
  else
    match ((tree.find labels).getD .empty).removeCookie candidate filter with
    | none => m
    | some (expired, map) =>
      let m := m.setMap protocol (tree.alter .empty (fun _ => map) labels)
      if expired.isSession then m else m.removedCookie.post (.remove expired)

/-- The labels under which a cookie is stored; some schemes have no domains. -/
def storageLabels (c : ParsedCookie) : List Text :=
  if shouldIgnoreScheme c.protocol then [] else domainLabels c

/-- Store, update or remove a cookie. The cookie that had to leave its map because of the limit is
returned. -/
def checkAndTreatCookie (m : CookieManager) (candidate : ParsedCookie)
    (policy : BackingStoreRemovalPolicy) (filter : CookieFilter) (currentTime : ℚ) :
    CookieManager × Option ParsedCookie :=
  if (filter = .noHttpOnlyCookie ∧ candidate.isHttpOnly = true) ∨
      (shouldIgnoreScheme candidate.protocol = true ∧ m.shouldDumpAllCookies = false) then (m, none)
  else
    let protocol := m.storageProtocol candidate.protocol
    let m := m.openMap protocol
    let labels := storageLabels candidate
    match findOrCreateCookieMap (candidate.hasExpired currentTime) (m.tree protocol) labels with
    | none =>
      (if policy = .backingStoreCookieEntry then m.post (.remove candidate) else m, none)
    | some tree =>
      let m := m.setMap protocol tree
      if candidate.hasExpired currentTime || candidate.isForceExpired then
        (m.expireCookie protocol labels candidate policy filter, none)
      else m.addCookieToMap protocol labels candidate policy filter

/-- Treat cookies one after the other and collect those that had to leave. -/
def checkAndTreatCookies (m : CookieManager) (policy : BackingStoreRemovalPolicy)
    (filter : CookieFilter) (currentTime : ℚ) :
    List ParsedCookie → CookieManager × List ParsedCookie
  | [] => (m, [])
  | c :: cookies =>
    let (m, evicted) := m.checkAndTreatCookie c policy filter currentTime
    let (m, evicted') := m.checkAndTreatCookies policy filter currentTime cookies
    (m, evicted.toList ++ evicted')

def setCookies (p : Platform) (m : CookieManager) (url : URL) (value : Text) (filter : CookieFilter)
    (currentTime : ℚ) : CookieManager × List ParsedCookie :=
  m.checkAndTreatCookies
    (if m.privateMode then .doNotRemoveFromBackingStore else .removeFromBackingStore) filter
    currentTime ((CookieParser.new url).parse p value currentTime)

/-! ## Lookup -/

/-- The path of the request begins with the path of the cookie, to which a `/` is added if
needed. -/
def matchesPath (p : Platform) (cookiePath path : Text) : Bool :=
  Text.startsWithIgnoringCase p.equalIgnoringCase path
    (if !p.equalIgnoringCase cookiePath path && cookiePath.getLast? != some 47 then
      cookiePath ++ text "/"
    else cookiePath)

/-- The cookie may be sent over the given kind of connection. -/
def isAllowed (isConnectionSecure : Bool) (filter : CookieFilter) (c : ParsedCookie) : Bool :=
  (isConnectionSecure || !c.isSecure) && (filter == .withHttpOnlyCookies || !c.isHttpOnly)

def isChosen (p : Platform) (path : Text) (isConnectionSecure : Bool) (filter : CookieFilter)
    (c : ParsedCookie) : Bool :=
  matchesPath p c.path path && isAllowed isConnectionSecure filter c

/-- The scheme whose maps are searched for a request. -/
def targetProtocol (m : CookieManager) (url : URL) : Option Text :=
  if (m.managerMap.lookup url.protocol).isSome then some url.protocol
  else if url.protocolIs (text "https") ∧ (m.managerMap.lookup (text "http")).isSome then
    some (text "http")
  else if url.protocolIs (text "wss") ∧ (m.managerMap.lookup (text "ws")).isSome then
    some (text "ws")
  else none

/-- Visit the maps along the labels, or all maps; expired cookies are removed from them. -/
def searchTree (everywhere : Bool) (tree : CookieTree) (labels : List Text) (currentTime : ℚ) :
    List ParsedCookie × CookieTree × Nat :=
  let maps := if everywhere then tree.values else tree.along labels
  let visit (map : CookieMap) : CookieMap := (map.getAllCookies currentTime).2.1
  (maps.flatMap fun map => (map.getAllCookies currentTime).1,
    if everywhere then tree.mapValues visit else tree.mapAlong visit labels,
    (maps.map fun map => (map.getAllCookies currentTime).2.2).sum)

def touch (chosen : ParsedCookie → Bool) (currentTime : ℚ) (c : ParsedCookie) : ParsedCookie :=
  if chosen c then { c with lastAccessed := currentTime } else c

/-- The access time of the chosen cookies is changed in the maps that hold them. -/
def touchTree (everywhere : Bool) (tree : CookieTree) (labels : List Text)
    (chosen : ParsedCookie → Bool) (currentTime : ℚ) : CookieTree :=
  let visit (map : CookieMap) : CookieMap :=
    { map with cookieVector := map.cookieVector.map (touch chosen currentTime) }
  if everywhere then tree.mapValues visit else tree.mapAlong visit labels

/-- Search the maps of some schemes, one scheme after the other. -/
def searchProtocols (m : CookieManager) (everywhere : Bool) (labels : List Text)
    (chosen : ParsedCookie → Bool) (currentTime : ℚ) :
    List Text → List ParsedCookie × CookieManager
  | [] => ([], m)
  | protocol :: protocols =>
    match m.managerMap.lookup protocol with
    | none => m.searchProtocols everywhere labels chosen currentTime protocols
    | some tree =>
      let (candidates, tree, removed) := searchTree everywhere tree labels currentTime
      let m :=
        (m.setMap protocol (touchTree everywhere tree labels chosen currentTime)).removedCookies
        removed
      let (candidates', m) := m.searchProtocols everywhere labels chosen currentTime protocols
      (candidates ++ candidates', m)

/-- The cookies for a request, and the manager with the access times updated. -/
def getRawCookies (p : Platform) (m : CookieManager) (url : URL) (filter : CookieFilter)
    (currentTime : ℚ) : List ParsedCookie × CookieManager :=
  let invalidScheme := shouldIgnoreScheme url.protocol
  let everywhere := invalidScheme && m.shouldDumpAllCookies
  let isConnectionSecure :=
    url.protocolIs (text "https") || url.protocolIs (text "wss") || everywhere
  if invalidScheme && !everywhere then ([], m)
  else
    let protocols :=
      if everywhere then m.managerMap.keys
      else (m.targetProtocol url).toList ++
        if m.shouldDumpAllCookies then [text "file", text "local"] else []
    let labels := ((p.lower url.host).split 46 true).reverse
    let chosen := isChosen p url.path isConnectionSecure filter
    let (candidates, m) := m.searchProtocols everywhere labels chosen currentTime protocols
    (((candidates.filter chosen).map (touch chosen currentTime)).insertionSort
      fun a b => cookieSorter b a = false, m)

/-- The header for a request. -/
def getCookie (p : Platform) (m : CookieManager) (url : URL) (filter : CookieFilter)
    (currentTime : ℚ) : Text × CookieManager :=
  let (cookies, m) := m.getRawCookies p url filter currentTime
  ((text "; ").intercalate (cookies.map (·.toNameValuePair)), m)

end CookieManager

/-! ## The interface for scripts -/

/-- The filter is the default argument of `CookieManager::setCookies`. -/
def setCookiesFromDOM (p : Platform) (m : CookieManager) (url : URL) (value : Text)
    (currentTime : ℚ) : CookieManager × List ParsedCookie :=
  m.setCookies p url value .withHttpOnlyCookies currentTime

def cookiesForSession (p : Platform) (m : CookieManager) (url : URL) (httponly : Bool)
    (currentTime : ℚ) : Text × CookieManager :=
  m.getCookie p url (if httponly then .withHttpOnlyCookies else .noHttpOnlyCookie) currentTime

def cookiesForDOM (p : Platform) (m : CookieManager) (url : URL) (currentTime : ℚ) :
    Text × CookieManager :=
  cookiesForSession p m url false currentTime

end Odyssey.Network.Cookies
