import Mathlib.Algebra.GroupWithZero.Nat
import Mathlib.Data.List.AList
import Odyssey.Network.DiskCache.CurlCacheEntry

/-!
# The disk cache

`CurlCacheManager` keeps the entries by URL, the URLs in the order of their last use, and the number
of bytes in the files of the entries. The base name of the files of a URL is its MD5 sum.
-/
namespace Odyssey.Network.DiskCache

open WTF

structure CurlCacheManager (Job : Type) where
  disabled : Bool
  index : AList fun _ : Text => CurlCacheEntry Job
  lruEntryList : List Text
  currentStorageSize : Nat
  storageSizeLimit : Nat
  files : FileSystem

/-- What the manager uses of the rest of the system. -/
structure Environment where
  md5 : Text → Text
  outcomes : Nat → Outcome

/-- `ListHashSet::prependOrMoveToFirst`. -/
def prependOrMoveToFirst (url : Text) (list : List Text) : List Text := url :: list.erase url

/-- The sum of two values of `size_t`. -/
def addSize (a b : Nat) : Nat := (a + b) % 2 ^ 32

/-- The difference of two values of `size_t`. -/
def subtractSize (a b : Nat) : Nat := if b ≤ a then a - b else a + 2 ^ 32 - b

namespace CurlCacheManager

variable {Job : Type} [DecidableEq Job] (env : Environment)

def init (storageSizeLimit : Nat) (size : FileName → Option Nat) : CurlCacheManager Job where
  disabled := false
  index := ∅
  lruEntryList := []
  currentStorageSize := 0
  storageSizeLimit := storageSizeLimit
  files := ⟨size, none, 0⟩

/-- The size after an entry is taken away; the size of the entry is asked for twice. -/
def sizeWithout (e : CurlCacheEntry Job) (m : CurlCacheManager Job) :
    Nat × CurlCacheEntry Job × FileSystem :=
  let sized := e.readEntrySize env.outcomes m.files
  if m.currentStorageSize < sized.1.entrySize then (0, sized)
  else
    let sized' := sized.1.readEntrySize env.outcomes sized.2
    (subtractSize m.currentStorageSize sized'.1.entrySize, sized')

def invalidateCacheEntry (url : Text) (m : CurlCacheManager Job) : CurlCacheManager Job :=
  if m.disabled then m
  else
    match m.index.lookup url with
    | none => { m with lruEntryList := m.lruEntryList.erase url }
    | some e =>
      let rest := sizeWithout env e m
      { m with
        index := m.index.erase url
        lruEntryList := m.lruEntryList.erase url
        currentStorageSize := rest.1
        files := rest.2.1.invalidate env.outcomes rest.2.2 }

/-- The loop of `makeRoomForNewEntry`; every step makes the list shorter. -/
def makeRoom : Nat → CurlCacheManager Job → CurlCacheManager Job
  | 0, m => m
  | count + 1, m =>
    if m.storageSizeLimit < m.currentStorageSize then
      match m.lruEntryList.getLast? with
      | none => m
      | some url => makeRoom count (m.invalidateCacheEntry env url)
    else m

def makeRoomForNewEntry (m : CurlCacheManager Job) : CurlCacheManager Job :=
  if m.disabled then m else makeRoom env m.lruEntryList.length m

/-- Change the entry of a URL, and the files. -/
def setEntry (url : Text) (e : CurlCacheEntry Job) (files : FileSystem) (m : CurlCacheManager Job) :
    CurlCacheManager Job :=
  { m with index := m.index.insert url e, files }

def touch (url : Text) (m : CurlCacheManager Job) : CurlCacheManager Job :=
  { m with lruEntryList := prependOrMoveToFirst url m.lruEntryList }

/-! ## The index file -/

def isASCIISpace (c : UInt16) : Bool := c == 32 || (decide (9 ≤ c) && decide (c ≤ 13))

def stripWhiteSpace (s : Text) : Text :=
  ((s.dropWhile isASCIISpace).reverse.dropWhile isASCIISpace).reverse

/-- The URLs that are read from the index file; the last of several lines is taken to be empty. -/
def indexURLs (content : Text) : List Text :=
  let lines := content.split 10 false
  (if 1 < lines.length then lines.dropLast else lines).map stripWhiteSpace

/-- One line of the index file. -/
def loadEntry (m : CurlCacheManager Job) (url : Text) : CurlCacheManager Job :=
  let e : CurlCacheEntry Job := CurlCacheEntry.new (env.md5 url) none
  let sized := e.readEntrySize env.outcomes (m.files.initOnce env.outcomes)
  if sized.1.entrySize ≠ 0 ∧ sized.1.entrySize < m.storageSizeLimit then
    let room := makeRoomForNewEntry env
      { m with
        currentStorageSize := addSize m.currentStorageSize sized.1.entrySize, files := sized.2 }
    (room.touch url).setEntry url sized.1 room.files
  else { m with files := sized.1.invalidate env.outcomes sized.2 }

/-- `loadIndex` when the index file has the given content, or cannot be read. -/
def loadIndex (content : Option Text) (m : CurlCacheManager Job) : CurlCacheManager Job :=
  if m.disabled then m
  else
    match content with
    | none => m
    | some content => (indexURLs content).foldl (loadEntry env) m

/-! ## Requests -/

def addCacheEntryClient (url : Text) (job : Job) (m : CurlCacheManager Job) :
    CurlCacheManager Job :=
  if m.disabled then m
  else
    match m.index.lookup url with
    | none => m
    | some e => m.setEntry url (e.addClient job) m.files

def removeCacheEntryClient (url : Text) (job : Job) (m : CurlCacheManager Job) :
    CurlCacheManager Job :=
  if m.disabled then m
  else
    match m.index.lookup url with
    | none => m
    | some e => m.setEntry url (e.removeClient job) m.files

def readCachedData (url : Text) (m : CurlCacheManager Job) : CurlCacheManager Job :=
  match m.index.lookup url with
  | none => m
  | some e =>
    let read := e.readCachedData env.outcomes m.files
    let m := { m.touch url with files := read.2 }
    if read.1 then m else m.invalidateCacheEntry env url

def saveResponseHeaders (url : Text) (response : Response) (m : CurlCacheManager Job) :
    CurlCacheManager Job :=
  match m.index.lookup url with
  | none => m
  | some e =>
    let saved := e.saveResponseHeaders env.outcomes response m.files
    let m := { m with files := saved.2 }
    if saved.1 then m else m.invalidateCacheEntry env url

/-- Another job is loading the entry, or uses it. -/
def isBusy (url : Text) (m : CurlCacheManager Job) : Bool :=
  match m.index.lookup url with
  | none => false
  | some e => e.isLoading || !e.clients.isEmpty

/-- A new response replaces the entry of its URL, or is only removed from the cache. -/
def storeResponse (now : ℚ) (job : Job) (url : Text) (response : Response)
    (m : CurlCacheManager Job) : CurlCacheManager Job :=
  let m := m.invalidateCacheEntry env url
  let e := CurlCacheEntry.new (env.md5 url) (some job)
  let parsed := e.parseResponseHeaders env.outcomes now response (m.files.initOnce env.outcomes)
  if parsed.1 then
    let loading := CurlCacheEntry.setIsLoading env.outcomes true parsed.2.1 parsed.2.2
    ((m.touch url).setEntry url loading.1 loading.2).saveResponseHeaders env url response
  else { m with files := parsed.2.2 }

def didReceiveResponse (now : ℚ) (job : Job) (cancelled : Bool) (url : Text) (response : Response)
    (m : CurlCacheManager Job) : CurlCacheManager Job :=
  if m.disabled || cancelled then m
  else
    let m := m.removeCacheEntryClient url job
    if response.isFromDiskCache then (m.readCachedData env url).touch url
    else if response.httpStatusCode = 200 then
      if m.isBusy url then m else m.storeResponse env now job url response
    else m.invalidateCacheEntry env url

def didReceiveData (job : Job) (url : Text) (size : Nat) (m : CurlCacheManager Job) :
    CurlCacheManager Job :=
  if m.disabled then m
  else
    match m.index.lookup url with
    | none => m
    | some e =>
      if e.job ≠ some job then m
      else
        let saved := e.saveCachedData env.outcomes size m.files
        let m := m.setEntry url saved.2.1 saved.2.2
        if saved.1 then
          ({ m with
            currentStorageSize :=
              addSize m.currentStorageSize size }.touch url).makeRoomForNewEntry env
        else m.invalidateCacheEntry env url

def didFinishLoading (url : Text) (m : CurlCacheManager Job) : CurlCacheManager Job :=
  if m.disabled then m
  else
    match m.index.lookup url with
    | none => m
    | some e =>
      let stopped := e.setIsLoading env.outcomes false m.files
      m.setEntry url stopped.1 stopped.2

def didFail (url : Text) (m : CurlCacheManager Job) : CurlCacheManager Job :=
  m.invalidateCacheEntry env url

def didCancel (url : Text) (m : CurlCacheManager Job) : CurlCacheManager Job :=
  m.invalidateCacheEntry env url

/-- An entry that cannot be used is removed. -/
def isCached (now : ℚ) (url : Text) (m : CurlCacheManager Job) : Bool × CurlCacheManager Job :=
  if m.disabled then (false, m)
  else
    match m.index.lookup url with
    | none => (false, m)
    | some e =>
      let cached := e.isCached env.outcomes now m.files
      let m := m.setEntry url cached.2.1 cached.2.2
      if cached.1 then (!cached.2.1.isLoading, m) else (false, m.invalidateCacheEntry env url)

/-! ## Runs -/

inductive Op (Job : Type) where
  | didReceiveResponse (now : ℚ) (job : Job) (cancelled : Bool) (url : Text) (response : Response)
  | didReceiveData (job : Job) (url : Text) (size : Nat)
  | didFinishLoading (url : Text)
  | didFail (url : Text)
  | didCancel (url : Text)
  | isCached (now : ℚ) (url : Text)
  | loadIndex (content : Option Text)
  | addCacheEntryClient (url : Text) (job : Job)
  | removeCacheEntryClient (url : Text) (job : Job)

def step (m : CurlCacheManager Job) : Op Job → CurlCacheManager Job
  | .didReceiveResponse now job cancelled url response =>
    m.didReceiveResponse env now job cancelled url response
  | .didReceiveData job url size => m.didReceiveData env job url size
  | .didFinishLoading url => m.didFinishLoading env url
  | .didFail url => m.didFail env url
  | .didCancel url => m.didCancel env url
  | .isCached now url => (m.isCached env now url).2
  | .loadIndex content => m.loadIndex env content
  | .addCacheEntryClient url job => m.addCacheEntryClient url job
  | .removeCacheEntryClient url job => m.removeCacheEntryClient url job

/-- A step as one of a run; no step fails. -/
def steps (m : CurlCacheManager Job) (op : Op Job) : Option (CurlCacheManager Job) :=
  some (m.step env op)

end CurlCacheManager

end Odyssey.Network.DiskCache
