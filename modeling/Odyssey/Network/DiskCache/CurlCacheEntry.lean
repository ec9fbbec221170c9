import Mathlib.Data.Rat.Defs
import Mathlib.Logic.Function.Basic
import Odyssey.WTF.Text

/-!
# Entries of the disk cache

An entry has two files, one for the response headers and one for the content. Of a file only its
size is kept. The outcome of the `n`-th file operation is `outcomes n`, so that a statement for all
`outcomes` is one for all behaviours of the file system. The port that reads all sizes of the cache
directory at once is modelled.
-/
namespace Odyssey.Network.DiskCache

open WTF

inductive FileKind where
  | header
  | content
  deriving DecidableEq

/-- A file of the cache directory, by its kind and base name. -/
abbrev FileName := FileKind × Text

/-- What the cache reads of a response. Times are milliseconds. -/
structure Response where
  isFromDiskCache : Bool
  httpStatusCode : Int
  httpHeaderFields : List (Text × Text)
  containsNoCache : Bool
  containsNoStore : Bool
  containsMustRevalidate : Bool
  hasCacheValidatorFields : Bool
  maxAge : Option ℚ
  lastModified : Option ℚ
  date : Option ℚ
  expires : Option ℚ
  hasETag : Bool
  hasLastModified : Bool

/-- What a file operation gives: whether it succeeds, how many bytes it writes, which files a
directory listing shows, the time of the last change of a file, and the headers read from a file. -/
structure Outcome where
  succeeds : Bool
  written : Nat
  listed : FileName → Bool
  modificationTime : Option ℚ
  headers : Response

/-- The files with their sizes, the sizes remembered by the `DirCache` once it is initialized, and
the number of operations so far. -/
structure FileSystem where
  size : FileName → Option Nat
  dirCache : Option (FileName → Option Nat)
  operations : Nat

namespace FileSystem

variable (outcomes : Nat → Outcome)

def next (fs : FileSystem) : FileSystem := { fs with operations := fs.operations + 1 }

/-- `DirCache::initOnce`. -/
def initOnce (fs : FileSystem) : FileSystem :=
  match fs.dirCache with
  | some _ => fs
  | none =>
    if (outcomes fs.operations).succeeds then
      { fs.next with
        dirCache := some fun file =>
          if (outcomes fs.operations).listed file then fs.size file else none }
    else fs.next

/-- `DirCache::getFileSize`; a remembered size is used once. -/
def getFileSize (file : FileName) (fs : FileSystem) : Option Nat × FileSystem :=
  match fs.dirCache.bind (· file) with
  | some size =>
    (some size,
      { fs with dirCache := fs.dirCache.map fun sizes => Function.update sizes file none })
  | none => (if (outcomes fs.operations).succeeds then fs.size file else none, fs.next)

def fileExists (file : FileName) (fs : FileSystem) : Bool × FileSystem :=
  ((outcomes fs.operations).succeeds && (fs.size file).isSome, fs.next)

/-- `openFile` for writing; a file that is there loses its content. -/
def openForWrite (file : FileName) (fs : FileSystem) : Bool × FileSystem :=
  if (outcomes fs.operations).succeeds then
    (true, { fs.next with size := Function.update fs.size file (some 0) })
  else (false, fs.next)

/-- `writeToFile` at the end of an open file. -/
def writeToFile (file : FileName) (length : Nat) (fs : FileSystem) : FileSystem :=
  { fs.next with
    size := Function.update fs.size file
      ((fs.size file).map (· + min length (outcomes fs.operations).written)) }

def deleteFile (file : FileName) (fs : FileSystem) : FileSystem :=
  if (outcomes fs.operations).succeeds then
    { fs.next with size := Function.update fs.size file none }
  else fs.next

/-- `loadFileToBuffer`; reading fails beyond the end of the file. -/
def loadFileToBuffer (file : FileName) (fs : FileSystem) : Bool × FileSystem :=
  if (outcomes fs.operations).succeeds = true ∧ (fs.size file).isSome = true then
    let filesize := fs.next.getFileSize outcomes file
    match filesize.1 with
    | none => (false, filesize.2)
    | some n =>
      ((outcomes filesize.2.operations).succeeds && decide (n ≤ (fs.size file).getD 0),
        filesize.2.next)
  else (false, fs.next)

end FileSystem

/-- Clients and jobs are given by their identity. -/
structure CurlCacheEntry (Job : Type) where
  basename : Text
  contentFileIsOpen : Bool
  entrySize : Nat
  expireDate : ℚ
  headerParsed : Bool
  isLoading : Bool
  clients : List Job
  job : Option Job

namespace CurlCacheEntry

variable {Job : Type} [DecidableEq Job] (outcomes : Nat → Outcome)

def new (basename : Text) (job : Option Job) : CurlCacheEntry Job where
  basename := basename
  contentFileIsOpen := false
  entrySize := 0
  expireDate := -1
  headerParsed := false
  isLoading := false
  clients := []
  job := job

def headerFile (e : CurlCacheEntry Job) : FileName := (.header, e.basename)

def contentFile (e : CurlCacheEntry Job) : FileName := (.content, e.basename)

/-- `entrySize()`, whose result is remembered in the entry. -/
def readEntrySize (e : CurlCacheEntry Job) (fs : FileSystem) : CurlCacheEntry Job × FileSystem :=
  if e.entrySize ≠ 0 then (e, fs)
  else
    let headerSize := fs.getFileSize outcomes e.headerFile
    match headerSize.1 with
    | none => (e, headerSize.2)
    | some header =>
      let contentSize := headerSize.2.getFileSize outcomes e.contentFile
      match contentSize.1 with
      | none => (e, contentSize.2)
      | some content => ({ e with entrySize := header + content }, contentSize.2)

/-- The conditions on a response to be stored. -/
def isCacheable (response : Response) : Bool :=
  !response.containsNoCache && !response.containsNoStore && response.hasCacheValidatorFields &&
    (response.hasETag || response.hasLastModified)

/-- The date until which a response can be used. -/
def computeExpireDate (old fileTime : ℚ) (response : Response) : ℚ :=
  let date : ℚ :=
    match response.maxAge, response.containsMustRevalidate with
    | some maxAge, false =>
      if old = -1 ∨ fileTime + maxAge < old then fileTime + maxAge else old
    | _, _ =>
      match response.date, response.expires with
      | some responseDate, some expirationDate =>
        if responseDate ≤ expirationDate then fileTime + (expirationDate - responseDate) else old
      | _, _ => old
  if date = -1 then
    match response.lastModified with
    | some lastModified => fileTime + (fileTime - lastModified) / 10
    | none => 0
  else date

def parseResponseHeaders (now : ℚ) (response : Response) (e : CurlCacheEntry Job)
    (fs : FileSystem) :
    Bool × CurlCacheEntry Job × FileSystem :=
  if response.containsNoCache || response.containsNoStore || !response.hasCacheValidatorFields then
    (false, e, fs)
  else
    let fileTime := (outcomes fs.operations).modificationTime.getD now
    let e := { e with expireDate := computeExpireDate e.expireDate fileTime response }
    if !response.hasETag && !response.hasLastModified then (false, e, fs.next)
    else (true, { e with headerParsed := true }, fs.next)

def loadResponseHeaders (now : ℚ) (e : CurlCacheEntry Job) (fs : FileSystem) :
    Bool × CurlCacheEntry Job × FileSystem :=
  let loaded := fs.loadFileToBuffer outcomes e.headerFile
  if loaded.1 then
    parseResponseHeaders outcomes now (outcomes fs.operations).headers e loaded.2
  else (false, e, loaded.2)

/-- The part of `isCached` after the headers have been parsed. -/
def isUsable (now : ℚ) (e : CurlCacheEntry Job) (fs : FileSystem) :
    Bool × CurlCacheEntry Job × FileSystem :=
  if e.expireDate < now then (false, { e with headerParsed := false }, fs)
  else
    let sized := e.readEntrySize outcomes fs
    (decide (sized.1.entrySize ≠ 0), sized.1, sized.2)

def isCached (now : ℚ) (e : CurlCacheEntry Job) (fs : FileSystem) :
    Bool × CurlCacheEntry Job × FileSystem :=
  let content := fs.fileExists outcomes e.contentFile
  let header := content.2.fileExists outcomes e.headerFile
  if !content.1 then (false, e, content.2)
  else if !header.1 then (false, e, header.2)
  else if e.headerParsed then isUsable outcomes now e header.2
  else
    let loaded := loadResponseHeaders outcomes now e header.2
    if loaded.1 then isUsable outcomes now loaded.2.1 loaded.2.2 else (false, loaded.2)

def openContentFile (e : CurlCacheEntry Job) (fs : FileSystem) :
    CurlCacheEntry Job × FileSystem :=
  if e.contentFileIsOpen then (e, fs)
  else
    let opened := fs.openForWrite outcomes e.contentFile
    ({ e with contentFileIsOpen := opened.1 }, opened.2)

def setIsLoading (isLoading : Bool) (e : CurlCacheEntry Job) (fs : FileSystem) :
    CurlCacheEntry Job × FileSystem :=
  if isLoading then openContentFile outcomes { e with isLoading } fs
  else ({ e with isLoading, contentFileIsOpen := false }, fs)

/-- Whether the data was saved; what was really written is not looked at. -/
def saveCachedData (size : Nat) (e : CurlCacheEntry Job) (fs : FileSystem) :
    Bool × CurlCacheEntry Job × FileSystem :=
  let opened := openContentFile outcomes e fs
  if opened.1.contentFileIsOpen then
    (true, opened.1, opened.2.writeToFile outcomes e.contentFile size)
  else (false, opened)

def readCachedData (e : CurlCacheEntry Job) (fs : FileSystem) : Bool × FileSystem :=
  fs.loadFileToBuffer outcomes e.contentFile

/-- A line `key: value` for every header field. -/
def saveResponseHeaders (response : Response) (e : CurlCacheEntry Job) (fs : FileSystem) :
    Bool × FileSystem :=
  let opened := fs.openForWrite outcomes e.headerFile
  if opened.1 then
    (true, response.httpHeaderFields.foldl (fun fs field =>
      fs.writeToFile outcomes e.headerFile (field.1.length + 2 + field.2.length + 1)) opened.2)
  else (false, opened.2)

/-- The files are deleted. -/
def invalidate (e : CurlCacheEntry Job) (fs : FileSystem) : FileSystem :=
  (fs.deleteFile outcomes e.headerFile).deleteFile outcomes e.contentFile

def addClient (job : Job) (e : CurlCacheEntry Job) : CurlCacheEntry Job :=
  { e with clients := if job ∈ e.clients then e.clients else e.clients ++ [job] }

def removeClient (job : Job) (e : CurlCacheEntry Job) : CurlCacheEntry Job :=
  { e with clients := e.clients.erase job }

end CurlCacheEntry

end Odyssey.Network.DiskCache
