import Mathlib.Algebra.BigOperators.Group.List.Basic
import Odyssey.Network.DiskCache.CurlCacheIndex

/-!
# The size of the disk cache

The size that the manager keeps is the number of bytes in the files of its entries as long as
nothing is written that it does not add and nothing is deleted that it does not subtract. It adds
the content of a response when it arrives, and never the headers; it subtracts what `entrySize`
reports, which may have been read before the last data came.
-/
namespace Odyssey.Network.DiskCache

open WTF Lib

namespace FileSystem

variable {outcomes : Nat → Outcome} {fs fs' : FileSystem} {kind : FileKind} {base : Text}

/-- The bytes in the files with a base name. -/
def bytes (fs : FileSystem) (base : Text) : Nat :=
  (fs.size (.header, base)).getD 0 + (fs.size (.content, base)).getD 0

/-- The size that the `DirCache` remembers for a file. -/
def remembered (fs : FileSystem) (file : FileName) : Option Nat := fs.dirCache.bind (· file)

/-- The sizes that the `DirCache` remembers for a base name are the true ones. -/
def Fresh (fs : FileSystem) (base : Text) : Prop :=
  ∀ kind size, fs.remembered (kind, base) = some size → fs.size (kind, base) = some size

/-- The other files stay as they are, and what the `DirCache` remembers of them stays true. -/
structure OnlyTouches (bases : Text → Prop) (fs fs' : FileSystem) : Prop where
  size : ∀ kind base, ¬ bases base → fs'.size (kind, base) = fs.size (kind, base)
  fresh : ∀ base, ¬ bases base → fs.Fresh base → fs'.Fresh base

theorem OnlyTouches.refl (bases : Text → Prop) (fs : FileSystem) : OnlyTouches bases fs fs :=
  ⟨fun _ _ _ => rfl, fun _ _ h => h⟩

theorem OnlyTouches.trans {bases : Text → Prop} {fs'' : FileSystem}
    (h : OnlyTouches bases fs fs') (h' : OnlyTouches bases fs' fs'') : OnlyTouches bases fs fs'' :=
  ⟨fun kind base ne => (h'.size kind base ne).trans (h.size kind base ne),
    fun base ne fresh => h'.fresh base ne (h.fresh base ne fresh)⟩

theorem OnlyTouches.mono {bases bases' : Text → Prop} (h : OnlyTouches bases fs fs')
    (le : ∀ base, bases base → bases' base) : OnlyTouches bases' fs fs' :=
  ⟨fun kind base ne => h.size kind base fun mem => ne (le base mem),
    fun base ne => h.fresh base fun mem => ne (le base mem)⟩

theorem OnlyTouches.bytes {bases : Text → Prop} (h : OnlyTouches bases fs fs') (ne : ¬ bases base) :
    fs'.bytes base = fs.bytes base := by
  rw [FileSystem.bytes, FileSystem.bytes, h.size _ base ne, h.size _ base ne]

/-- Operations that only read. -/
abbrev Reads (fs fs' : FileSystem) : Prop := OnlyTouches (fun _ => False) fs fs'

theorem Reads.size_eq (h : Reads fs fs') : fs'.size = fs.size :=
  funext fun file => h.size file.1 file.2 id

theorem Reads.bytes_eq (h : Reads fs fs') (base : Text) : fs'.bytes base = fs.bytes base :=
  h.bytes id

theorem Reads.onlyTouches (h : Reads fs fs') (bases : Text → Prop) : OnlyTouches bases fs fs' :=
  h.mono fun _ => False.elim

theorem reads_next : Reads fs fs.next := ⟨fun _ _ _ => rfl, fun _ _ h => h⟩

theorem reads_initOnce : Reads fs (fs.initOnce outcomes) := by
  unfold initOnce
  split
  · exact .refl _ _
  next none =>
    split_ifs
    · refine ⟨fun _ _ _ => rfl, fun base _ _ kind size eq => ?_⟩
      dsimp only [remembered, Option.bind_some] at eq
      split_ifs at eq
      exact eq
    · exact reads_next

theorem reads_getFileSize (file : FileName) : Reads fs (fs.getFileSize outcomes file).2 := by
  unfold getFileSize
  split
  · refine ⟨fun _ _ _ => rfl, fun base _ fresh kind size eq => fresh kind size ?_⟩
    rw [remembered] at eq ⊢
    cases cached : fs.dirCache with
    | none => rw [cached] at eq; cases eq
    | some sizes =>
      rw [cached, Option.map_some, Option.bind_some, Function.update_apply] at eq
      split_ifs at eq
      exact eq
  · exact reads_next

theorem reads_fileExists (file : FileName) : Reads fs (fs.fileExists outcomes file).2 := reads_next

theorem reads_loadFileToBuffer (file : FileName) :
    Reads fs (fs.loadFileToBuffer outcomes file).2 := by
  unfold loadFileToBuffer
  split_ifs
  · dsimp only
    split
    · exact reads_next.trans (reads_getFileSize file)
    · exact (reads_next.trans (reads_getFileSize file)).trans reads_next
  · exact reads_next

/-- A size that is reported is the true one. -/
theorem getFileSize_eq_some {size : Nat} (fresh : fs.Fresh base)
    (eq : (fs.getFileSize outcomes (kind, base)).1 = some size) :
    fs.size (kind, base) = some size := by
  unfold getFileSize at eq
  split at eq
  next cached =>
    cases eq
    exact fresh kind _ cached
  next none =>
    dsimp only at eq
    split_ifs at eq
    exact eq

/-- The size of one file is changed. -/
theorem onlyTouches_update (fs : FileSystem) (file : FileName) (value : Option Nat) :
    OnlyTouches (· = file.2) fs { fs.next with size := Function.update fs.size file value } := by
  have size (kind : FileKind) (base : Text) (ne : ¬ base = file.2) :
      Function.update fs.size file value (kind, base) = fs.size (kind, base) :=
    Function.update_of_ne (fun eq => ne (congrArg Prod.snd eq)) _ _
  exact ⟨size, fun base ne fresh kind n eq => (size kind base ne).trans (fresh kind n eq)⟩

/-- The size of a file is changed that the `DirCache` does not remember. -/
theorem Fresh.update (fresh : fs.Fresh base) (forgotten : fs.remembered (kind, base) = none)
    (value : Option Nat) :
    Fresh { fs.next with size := Function.update fs.size (kind, base) value } base := by
  intro kind' size eq
  have ne : (kind', base) ≠ (kind, base) := by
    rintro same
    rw [same] at eq
    exact absurd (eq.symm.trans forgotten) (by simp)
  exact (Function.update_of_ne ne _ _).trans (fresh kind' size eq)

theorem onlyTouches_deleteFile (file : FileName) :
    OnlyTouches (· = file.2) fs (fs.deleteFile outcomes file) := by
  unfold deleteFile
  split_ifs
  · exact onlyTouches_update fs file none
  · exact reads_next.onlyTouches _

/-- Lines of which nothing is written. -/
theorem foldl_writeToFile {α : Type*} {file : FileName} (length : α → Nat) (lines : List α)
    (fs : FileSystem) (nothing : ∀ i < lines.length, (outcomes (fs.operations + i)).written = 0) :
    lines.foldl (fun fs line => fs.writeToFile outcomes file (length line)) fs =
      { fs with operations := fs.operations + lines.length } := by
  induction lines generalizing fs with
  | nil => rfl
  | cons line lines ih =>
    have none : (outcomes fs.operations).written = 0 := nothing 0 (Nat.zero_lt_succ _)
    have same : fs.writeToFile outcomes file (length line) = fs.next := by
      simp [writeToFile, none]
      rfl
    rw [List.foldl_cons, same, ih fs.next fun i lt => ?_, List.length_cons]
    · rw [next, Nat.add_right_comm, Nat.add_assoc]
    · have := nothing (i + 1) (Nat.succ_lt_succ lt)
      rwa [Nat.add_comm i 1, ← Nat.add_assoc] at this

end FileSystem

namespace CurlCacheEntry

open FileSystem

variable {Job : Type} {outcomes : Nat → Outcome} {fs fs' : FileSystem} {e e' : CurlCacheEntry Job}
  {base : Text}

theorem onlyTouches_invalidate :
    OnlyTouches (· = e.basename) fs (e.invalidate outcomes fs) :=
  (onlyTouches_deleteFile e.headerFile).trans (onlyTouches_deleteFile e.contentFile)

/-- What stays the same about an entry whose files are only read. -/
structure SameFiles (fs : FileSystem) (e e' : CurlCacheEntry Job) : Prop where
  basename : e'.basename = e.basename
  isOpen : e'.contentFileIsOpen = true → e.contentFileIsOpen = true
  entrySize : fs.Fresh e.basename → e'.entrySize = e.entrySize ∨ e'.entrySize = fs.bytes e.basename

theorem SameFiles.refl (fs : FileSystem) (e : CurlCacheEntry Job) : SameFiles fs e e :=
  ⟨rfl, id, fun _ => .inl rfl⟩

theorem SameFiles.trans {e'' : CurlCacheEntry Job} (h : SameFiles fs e e') (reads : Reads fs fs')
    (h' : SameFiles fs' e' e'') : SameFiles fs e e'' := by
  refine ⟨h'.basename.trans h.basename, fun h'' => h.isOpen (h'.isOpen h''), fun fresh => ?_⟩
  have last := h'.entrySize (by rw [h.basename]; exact reads.fresh _ id fresh)
  rw [h.basename, reads.bytes_eq] at last
  rcases last with same | read
  · rw [same]
    exact h.entrySize fresh
  · exact .inr read

theorem reads_readEntrySize : Reads fs (e.readEntrySize outcomes fs).2 := by
  unfold readEntrySize
  split_ifs
  · exact .refl _ _
  · dsimp only
    split
    · exact reads_getFileSize _
    · split <;> exact (reads_getFileSize _).trans (reads_getFileSize _)

/-- The size that is read is the true one. -/
theorem sameFiles_readEntrySize : SameFiles fs e (e.readEntrySize outcomes fs).1 := by
  unfold readEntrySize
  split_ifs
  · exact .refl fs e
  · dsimp only
    split
    · exact .refl fs e
    next header headerEq =>
      split
      · exact .refl fs e
      next content contentEq =>
        refine ⟨rfl, id, fun fresh => .inr ?_⟩
        have reads := @reads_getFileSize outcomes fs e.headerFile
        have headerSize := getFileSize_eq_some fresh headerEq
        have contentSize := getFileSize_eq_some (reads.fresh _ id fresh) contentEq
        rw [reads.size_eq] at contentSize
        rw [bytes, headerSize, contentSize]
        rfl

/-- What is read for a line of the index file. -/
theorem readEntrySize_new (fresh : fs.Fresh base) {sized : CurlCacheEntry Job × FileSystem}
    (eq : (new base none).readEntrySize outcomes (fs.initOnce outcomes) = sized) :
    Reads fs sized.2 ∧ sized.1.basename = base ∧ sized.1.contentFileIsOpen = false ∧
      (sized.1.entrySize ≠ 0 → sized.1.entrySize = fs.bytes base) := by
  subst eq
  have init : Reads fs (fs.initOnce outcomes) := reads_initOnce
  have same := @sameFiles_readEntrySize Job outcomes (fs.initOnce outcomes) (new base none)
  refine ⟨init.trans reads_readEntrySize, same.basename,
    Bool.eq_false_iff.mpr fun isOpen => Bool.false_ne_true (same.isOpen isOpen), fun ne => ?_⟩
  rw [← init.bytes_eq]
  exact (same.entrySize (init.fresh base id fresh)).resolve_left ne

theorem reads_parseResponseHeaders (now : ℚ) (response : Response) :
    Reads fs (e.parseResponseHeaders outcomes now response fs).2.2 ∧
      (e.parseResponseHeaders outcomes now response fs).2.1.basename = e.basename ∧
      (e.parseResponseHeaders outcomes now response fs).2.1.contentFileIsOpen =
        e.contentFileIsOpen ∧
      (e.parseResponseHeaders outcomes now response fs).2.1.entrySize = e.entrySize := by
  unfold parseResponseHeaders
  dsimp only
  split_ifs
  · exact ⟨.refl _ _, rfl, rfl, rfl⟩
  · exact ⟨reads_next, rfl, rfl, rfl⟩
  · exact ⟨reads_next, rfl, rfl, rfl⟩

theorem parseResponseHeaders_fst (now : ℚ) (response : Response) :
    (e.parseResponseHeaders outcomes now response fs).1 = isCacheable response := by
  unfold parseResponseHeaders isCacheable
  cases response.containsNoCache <;> cases response.containsNoStore <;>
    cases response.hasCacheValidatorFields <;> cases response.hasETag <;>
    cases response.hasLastModified <;> rfl

theorem parseResponseHeaders_of_isCacheable (now : ℚ) {response : Response}
    (cacheable : isCacheable response = true) :
    ∃ expireDate, e.parseResponseHeaders outcomes now response fs =
      (true, { e with expireDate, headerParsed := true }, fs.next) := by
  have first := (@parseResponseHeaders_fst _ outcomes fs e now response).trans cacheable
  unfold parseResponseHeaders at first ⊢
  dsimp only at first ⊢
  split_ifs at first ⊢
  exact ⟨_, rfl⟩

theorem reads_isUsable (now : ℚ) :
    Reads fs (e.isUsable outcomes now fs).2.2 ∧
      SameFiles fs e (e.isUsable outcomes now fs).2.1 := by
  unfold isUsable
  split_ifs
  · exact ⟨.refl _ _, rfl, id, fun _ => .inl rfl⟩
  · exact ⟨reads_readEntrySize, sameFiles_readEntrySize⟩

theorem reads_loadResponseHeaders (now : ℚ) :
    Reads fs (e.loadResponseHeaders outcomes now fs).2.2 ∧
      SameFiles fs e (e.loadResponseHeaders outcomes now fs).2.1 := by
  unfold loadResponseHeaders
  dsimp only
  split_ifs
  · obtain ⟨reads, base, isOpen, size⟩ := @reads_parseResponseHeaders _ outcomes
      (fs.loadFileToBuffer outcomes e.headerFile).2 e now (outcomes fs.operations).headers
    exact ⟨(reads_loadFileToBuffer _).trans reads, base, fun h => isOpen ▸ h, fun _ => .inl size⟩
  · exact ⟨reads_loadFileToBuffer _, .refl fs e⟩

theorem reads_isCached (now : ℚ) :
    Reads fs (e.isCached outcomes now fs).2.2 ∧
      SameFiles fs e (e.isCached outcomes now fs).2.1 := by
  have exists' := (@reads_fileExists outcomes fs e.contentFile).trans
    (@reads_fileExists outcomes _ e.headerFile)
  unfold isCached
  dsimp only
  split_ifs
  · exact ⟨reads_next, .refl fs e⟩
  · exact ⟨exists', .refl fs e⟩
  · obtain ⟨reads, same⟩ := @reads_isUsable _ outcomes
      ((fs.fileExists outcomes e.contentFile).2.fileExists outcomes e.headerFile).2 e now
    exact ⟨exists'.trans reads, (SameFiles.refl fs e).trans exists' same⟩
  all_goals
    obtain ⟨reads, same⟩ := @reads_loadResponseHeaders _ outcomes
      ((fs.fileExists outcomes e.contentFile).2.fileExists outcomes e.headerFile).2 e now
    have loaded := (SameFiles.refl fs e).trans exists' same
  · obtain ⟨reads', same'⟩ := @reads_isUsable _ outcomes (e.loadResponseHeaders outcomes now
        ((fs.fileExists outcomes e.contentFile).2.fileExists outcomes e.headerFile).2).2.2 _ now
    exact ⟨(exists'.trans reads).trans reads', loaded.trans (exists'.trans reads) same'⟩
  · exact ⟨exists'.trans reads, loaded⟩

/-! ## What an entry knows of its files -/

/-- A size that the entry or the `DirCache` remembers is the true one, and a content file that is
open exists. -/
structure Describes (fs : FileSystem) (base : Text) (e : CurlCacheEntry Job) : Prop where
  basename : e.basename = base
  known : e.entrySize ≠ 0 → e.entrySize = fs.bytes base
  fresh : fs.Fresh base
  isOpen : e.contentFileIsOpen = true → (fs.size (.content, base)).isSome = true

theorem Describes.onlyTouches {bases : Text → Prop} (h : Describes fs base e)
    (touches : OnlyTouches bases fs fs') (ne : ¬ bases base) : Describes fs' base e where
  basename := h.basename
  known := by rw [touches.bytes ne]; exact h.known
  fresh := touches.fresh base ne h.fresh
  isOpen := by rw [touches.size _ base ne]; exact h.isOpen

theorem Describes.sameFiles (h : Describes fs base e) (same : SameFiles fs e e') :
    Describes fs base e' where
  basename := same.basename.trans h.basename
  known ne := by
    have size := same.entrySize (by rw [h.basename]; exact h.fresh)
    rw [h.basename] at size
    rcases size with size | size
    · rw [size] at ne ⊢
      exact h.known ne
    · exact size
  fresh := h.fresh
  isOpen isOpen := h.isOpen (same.isOpen isOpen)

/-- The sizes of both files can be read. -/
def SizesReadable (outcomes : Nat → Outcome) (fs : FileSystem) (e : CurlCacheEntry Job) : Prop :=
  (fs.getFileSize outcomes e.headerFile).1.isSome = true ∧
    ((fs.getFileSize outcomes e.headerFile).2.getFileSize outcomes e.contentFile).1.isSome = true

/-- The size of the entry is known, or there is nothing to know, or it can be read one of the two
times that `invalidateCacheEntry` asks for it. -/
def Measured (outcomes : Nat → Outcome) (fs : FileSystem) (e : CurlCacheEntry Job) : Prop :=
  e.entrySize ≠ 0 ∨ fs.bytes e.basename = 0 ∨ e.SizesReadable outcomes fs ∨
    (e.readEntrySize outcomes fs).1.SizesReadable outcomes (e.readEntrySize outcomes fs).2

theorem Describes.readEntrySize (h : Describes fs base e) (outcomes : Nat → Outcome) :
    Describes (e.readEntrySize outcomes fs).2 base (e.readEntrySize outcomes fs).1 :=
  (h.sameFiles sameFiles_readEntrySize).onlyTouches reads_readEntrySize id

theorem entrySize_readEntrySize (fresh : fs.Fresh e.basename)
    (readable : e.SizesReadable outcomes fs) (unknown : e.entrySize = 0) :
    (e.readEntrySize outcomes fs).1.entrySize = fs.bytes e.basename := by
  obtain ⟨header, headerEq⟩ := Option.isSome_iff_exists.mp readable.1
  obtain ⟨content, contentEq⟩ := Option.isSome_iff_exists.mp readable.2
  have reads := @reads_getFileSize outcomes fs e.headerFile
  have headerSize := getFileSize_eq_some fresh headerEq
  have contentSize := getFileSize_eq_some (reads.fresh _ id fresh) contentEq
  rw [reads.size_eq] at contentSize
  rw [CurlCacheEntry.readEntrySize, if_neg (not_not_intro unknown)]
  simp only [headerEq, contentEq, bytes, headerSize, contentSize, Option.getD_some]

/-- What is subtracted for the entry. -/
theorem Describes.measured (h : Describes fs base e) (measured : e.Measured outcomes fs) :
    ((e.readEntrySize outcomes fs).1.readEntrySize outcomes
      (e.readEntrySize outcomes fs).2).1.entrySize = fs.bytes base := by
  have first := h.readEntrySize outcomes
  have second := first.sameFiles (@sameFiles_readEntrySize _ outcomes _ _)
  have bytes := (@reads_readEntrySize _ outcomes fs e).bytes_eq base
  rw [← bytes]
  by_cases known : (e.readEntrySize outcomes fs).1.entrySize = 0
  · by_contra ne
    -- the second answer is zero, and so wrong
    have zero : ((e.readEntrySize outcomes fs).1.readEntrySize outcomes
        (e.readEntrySize outcomes fs).2).1.entrySize = 0 := by
      by_contra known'
      exact ne (second.known known')
    rw [zero, bytes] at ne
    rcases measured with known' | zero' | readable | readable
    · rw [CurlCacheEntry.readEntrySize, if_pos known'] at known
      exact known' known
    · exact ne (h.basename ▸ zero'.symm)
    · have unknown : e.entrySize = 0 := by
        by_contra known'
        rw [CurlCacheEntry.readEntrySize, if_pos known'] at known
        exact known' known
      rw [entrySize_readEntrySize (h.basename ▸ h.fresh) readable unknown, h.basename] at known
      exact ne known.symm
    · rw [entrySize_readEntrySize (first.basename ▸ first.fresh) readable known, first.basename,
        bytes] at zero
      exact ne zero.symm
  · rw [CurlCacheEntry.readEntrySize, if_pos known]
    exact first.known known

/-- The data are appended as a whole: an open file takes all of them, and a file that has to be
opened for them has been empty. -/
def Appends (outcomes : Nat → Outcome) (size : Nat) (fs : FileSystem) (e : CurlCacheEntry Job) :
    Prop :=
  if e.contentFileIsOpen then size ≤ (outcomes fs.operations).written
  else (fs.size e.contentFile).getD 0 = 0 ∧ size ≤ (outcomes (fs.operations + 1)).written

theorem saveCachedData_fst (size : Nat) : (e.saveCachedData outcomes size fs).1 =
    (e.contentFileIsOpen || (outcomes fs.operations).succeeds) := by
  unfold saveCachedData openContentFile openForWrite
  by_cases isOpen : e.contentFileIsOpen = true <;>
    by_cases succeeds : (outcomes fs.operations).succeeds = true <;> simp [isOpen, succeeds]

/-- Without a file nothing happens. -/
theorem saveCachedData_of_fails {size : Nat}
    (fails : ¬ (e.saveCachedData outcomes size fs).1 = true) :
    e.saveCachedData outcomes size fs = (false, e, fs.next) := by
  rw [saveCachedData_fst, Bool.or_eq_true, not_or, Bool.not_eq_true, Bool.not_eq_true] at fails
  obtain ⟨base, isOpen⟩ := e
  simp only at fails
  simp [saveCachedData, openContentFile, openForWrite, fails]

/-- The content file is open with its `n` bytes of before, and takes the data. -/
structure Takes (outcomes : Nat → Outcome) (fs fs' : FileSystem) (base : Text) (size n : Nat) :
    Prop where
  touches : OnlyTouches (· = base) fs fs'
  header : fs'.size (.header, base) = fs.size (.header, base)
  content : fs'.size (.content, base) = some n
  before : (fs.size (.content, base)).getD 0 = n
  fresh : fs'.Fresh base
  forgotten : fs'.remembered (.content, base) = none
  enough : size ≤ (outcomes fs'.operations).written

theorem takes_openContentFile {size : Nat} (describes : Describes fs base e)
    (forgotten : fs.remembered (.content, base) = none) (appends : e.Appends outcomes size fs)
    (saved : (e.saveCachedData outcomes size fs).1 = true) :
    ∃ fs' n, openContentFile outcomes e fs = ({ e with contentFileIsOpen := true }, fs') ∧
      Takes outcomes fs fs' base size n := by
  have file : e.contentFile = (.content, base) := by rw [contentFile, describes.basename]
  rw [Appends, file] at appends
  by_cases isOpen : e.contentFileIsOpen = true
  · obtain ⟨n, content⟩ := Option.isSome_iff_exists.mp (describes.isOpen isOpen)
    rw [if_pos isOpen] at appends
    refine ⟨fs, n, ?_, .refl _ _, rfl, content, by rw [content]; rfl, describes.fresh, forgotten,
      appends⟩
    rw [openContentFile, if_pos isOpen, ← isOpen]
  · rw [if_neg isOpen] at appends
    have opens : (outcomes fs.operations).succeeds = true := by
      simpa [saveCachedData_fst, isOpen] using saved
    have opened : openContentFile outcomes e fs = ({ e with contentFileIsOpen := true },
        { fs.next with size := Function.update fs.size (.content, base) (some 0) }) := by
      rw [openContentFile, if_neg isOpen, file, openForWrite, if_pos opens]
    refine ⟨_, 0, opened, onlyTouches_update fs (.content, base) (some 0), ?_, ?_, appends.1,
      describes.fresh.update forgotten _, forgotten, appends.2⟩
    · simp
    · exact Function.update_self ..

/-- Data that are appended to the content file. -/
theorem saveCachedData_spec {size : Nat} (describes : Describes fs base e)
    (unknown : e.entrySize = 0)
    (forgotten : fs.remembered (.content, base) = none) (appends : e.Appends outcomes size fs)
    (saved : (e.saveCachedData outcomes size fs).1 = true) :
    OnlyTouches (· = base) fs (e.saveCachedData outcomes size fs).2.2 ∧
      (e.saveCachedData outcomes size fs).2.2.bytes base = fs.bytes base + size ∧
      Describes (e.saveCachedData outcomes size fs).2.2 base
        (e.saveCachedData outcomes size fs).2.1 := by
  have file : e.contentFile = (.content, base) := by rw [contentFile, describes.basename]
  obtain ⟨fs', n, opened, takes⟩ := takes_openContentFile describes forgotten appends saved
  have result : e.saveCachedData outcomes size fs =
      (true, { e with contentFileIsOpen := true },
        { fs'.next with size := Function.update fs'.size (.content, base) (some (n + size)) }) := by
    unfold saveCachedData
    rw [opened]
    simp only [if_true, file, writeToFile, takes.content, Option.map_some,
      Nat.min_eq_left takes.enough]
  rw [result]
  have bytes : FileSystem.bytes { fs'.next with
      size := Function.update fs'.size (.content, base) (some (n + size)) } base =
      fs.bytes base + size := by
    rw [FileSystem.bytes, FileSystem.bytes, takes.before]
    dsimp only
    rw [Function.update_self, Function.update_of_ne (by simp), takes.header, Option.getD_some,
      Nat.add_assoc]
  refine ⟨takes.touches.trans (onlyTouches_update fs' (.content, base) (some (n + size))), bytes,
    describes.basename, fun ne => absurd unknown ne, takes.fresh.update takes.forgotten _,
    fun _ => ?_⟩
  dsimp only
  rw [Function.update_self]
  rfl

end CurlCacheEntry

namespace CurlCacheManager

open FileSystem CurlCacheEntry

variable {Job : Type} {env : Environment} {m : CurlCacheManager Job} {url : Text}
  {extra extra' : Nat} {e e' : CurlCacheEntry Job} {files : FileSystem}

/-- The bytes in the files of the entries. -/
def totalBytes (env : Environment) (m : CurlCacheManager Job) : Nat :=
  (m.index.keys.map fun url => m.files.bytes (env.md5 url)).sum

/-- The entries know their files, and the size of the cache is that of the files and of `extra`
bytes. -/
structure Counted (env : Environment) (extra : Nat) (m : CurlCacheManager Job) : Prop where
  entry : ∀ url e, m.index.lookup url = some e → Describes m.files (env.md5 url) e
  distinct : ∀ url ∈ m.index, ∀ other ∈ m.index, env.md5 url = env.md5 other → url = other
  total : m.currentStorageSize = totalBytes env m + extra

/-- The base names of the entries. -/
def Bases (env : Environment) (m : CurlCacheManager Job) (base : Text) : Prop :=
  ∃ url ∈ m.index, env.md5 url = base

/-- The sum with one URL taken out. -/
theorem sum_erase (m : CurlCacheManager Job) (url : Text) :
    (((m.index.erase url).keys).map fun url => m.files.bytes (env.md5 url)).sum +
      (if url ∈ m.index then m.files.bytes (env.md5 url) else 0) = totalBytes env m := by
  rw [totalBytes]
  split_ifs with mem
  · rw [AList.keys_erase, Nat.add_comm]
    exact List.sum_map_erase (fun url => m.files.bytes (env.md5 url)) (AList.mem_keys.mp mem)
  · exact congrArg (fun entries : List (Sigma fun _ : Text => CurlCacheEntry Job) =>
      (entries.keys.map fun url => m.files.bytes (env.md5 url)).sum)
      (List.kerase_of_notMem_keys fun h => mem (AList.mem_keys.mpr h))

/-- The files of the other entries stay as they are. -/
theorem sum_erase_congr
    (same : ∀ other ∈ m.index, other ≠ url →
      files.bytes (env.md5 other) = m.files.bytes (env.md5 other)) :
    (((m.index.erase url).keys).map fun url => files.bytes (env.md5 url)).sum =
      (((m.index.erase url).keys).map fun url => m.files.bytes (env.md5 url)).sum := by
  rw [List.map_congr_left fun other mem => ?_]
  obtain ⟨ne, mem⟩ := AList.mem_erase.mp (AList.mem_keys.mpr mem)
  exact same other mem ne

/-- An entry is put into the index, and its files are changed. -/
theorem Counted.insert (counted : Counted env extra m) {list : List Text} {size : Nat}
    (touches : OnlyTouches (· = env.md5 url) m.files files)
    (describes : Describes files (env.md5 url) e')
    (alone : ∀ other ∈ m.index, env.md5 other = env.md5 url → other = url)
    (total : size + (if url ∈ m.index then m.files.bytes (env.md5 url) else 0) + extra =
      m.currentStorageSize + files.bytes (env.md5 url) + extra') :
    Counted env extra' { m with
      index := m.index.insert url e', lruEntryList := list, currentStorageSize := size,
      files } := by
  have kept (other : Text) (mem : other ∈ m.index) (ne : other ≠ url) :
      ¬ env.md5 other = env.md5 url := fun same => ne (alone other mem same)
  refine ⟨fun other e eq => ?_, fun other mem other' mem' eq => ?_, ?_⟩
  · dsimp only at eq ⊢
    by_cases ne : other = url
    · subst ne
      rw [AList.lookup_insert, Option.some.injEq] at eq
      exact eq ▸ describes
    · rw [AList.lookup_insert_ne ne] at eq
      exact (counted.entry other e eq).onlyTouches touches (kept other (mem_of_lookup eq) ne)
  · rcases (AList.mem_insert _).mp mem with rfl | inner <;>
      rcases (AList.mem_insert _).mp mem' with rfl | inner'
    · rfl
    · exact (alone other' inner' eq.symm).symm
    · exact alone other inner eq
    · exact counted.distinct other inner other' inner' eq
  · have rest := @sum_erase_congr _ env m url files
      fun other mem ne => touches.bytes (kept other mem ne)
    have split := @sum_erase _ env m url
    have before := counted.total
    rw [totalBytes]
    dsimp only
    rw [AList.keys_insert, List.map_cons, List.sum_cons, ← AList.keys_erase, rest]
    omega

theorem Counted.alone (counted : Counted env extra m) (mem : url ∈ m.index) (other : Text)
    (mem' : other ∈ m.index) (eq : env.md5 other = env.md5 url) : other = url :=
  counted.distinct other mem' url mem eq

/-- Operations that only read files, and change an entry in other respects. -/
theorem Counted.setEntry (counted : Counted env extra m) (eq : m.index.lookup url = some e)
    (same : SameFiles m.files e e') (reads : Reads m.files files) :
    Counted env extra (m.setEntry url e' files) := by
  have mem := mem_of_lookup eq
  refine counted.insert (reads.onlyTouches _)
    (((counted.entry url e eq).sameFiles same).onlyTouches reads id) (counted.alone mem) ?_
  rw [if_pos mem, reads.bytes_eq]

/-- The list does not matter, and the files may be read. -/
theorem Counted.withFiles (counted : Counted env extra m) (list : List Text)
    (reads : Reads m.files files) :
    Counted env extra { m with lruEntryList := list, files } := by
  refine ⟨fun url e eq => (counted.entry url e eq).onlyTouches reads id, counted.distinct, ?_⟩
  rw [totalBytes]
  dsimp only
  rw [counted.total, totalBytes]
  simp only [reads.bytes_eq]

/-! ## Entries that are removed -/

/-- The size of the entry of a URL can be read when the entry is removed. -/
def MeasuredAt (env : Environment) (m : CurlCacheManager Job) (url : Text) : Prop :=
  ∀ e, m.index.lookup url = some e → e.Measured env.outcomes m.files

/-- What is left of the size without the entry. -/
theorem Counted.sizeWithout (counted : Counted env extra m) {e : CurlCacheEntry Job}
    (eq : m.index.lookup url = some e) (measured : e.Measured env.outcomes m.files) :
    ∃ e' files, CurlCacheManager.sizeWithout env e m =
      (m.currentStorageSize - m.files.bytes (env.md5 url), e', files) ∧ Reads m.files files ∧
        e'.basename = env.md5 url := by
  have describes := counted.entry url e eq
  have total := counted.total
  have split := @sum_erase _ env m url
  rw [if_pos (mem_of_lookup eq)] at split
  have first := describes.sameFiles (@sameFiles_readEntrySize _ env.outcomes m.files e)
  have size := describes.measured measured
  have le : (e.readEntrySize env.outcomes m.files).1.entrySize ≤ m.currentStorageSize := by
    by_cases zero : (e.readEntrySize env.outcomes m.files).1.entrySize = 0
    · omega
    · rw [first.known zero]
      omega
  rw [CurlCacheManager.sizeWithout]
  dsimp only
  rw [if_neg (Nat.not_lt.mpr le), size, subtractSize, if_pos (by omega)]
  exact ⟨_, _, rfl, reads_readEntrySize.trans reads_readEntrySize,
    sameFiles_readEntrySize.basename.trans first.basename⟩

/-- The entry and its files go away, and its size is subtracted. -/
theorem Counted.invalidateCacheEntry (counted : Counted env extra m)
    (measured : MeasuredAt env m url) :
    Counted env extra (m.invalidateCacheEntry env url) ∧
      OnlyTouches (Bases env m) m.files (m.invalidateCacheEntry env url).files ∧
      ∀ other ∈ (m.invalidateCacheEntry env url).index, other ∈ m.index := by
  unfold CurlCacheManager.invalidateCacheEntry
  split_ifs with disabled
  · exact ⟨counted, .refl _ _, fun _ mem => mem⟩
  · split
    · exact ⟨⟨counted.entry, counted.distinct, counted.total⟩, .refl _ _, fun _ mem => mem⟩
    next e eq =>
      have mem := mem_of_lookup eq
      obtain ⟨e', files, rest, reads, base⟩ := counted.sizeWithout eq (measured e eq)
      have touches : OnlyTouches (· = env.md5 url) m.files (e'.invalidate env.outcomes files) := by
        rw [← base]
        exact (reads.onlyTouches _).trans onlyTouches_invalidate
      have kept (other : Text) (mem' : other ∈ m.index) (ne : other ≠ url) :
          ¬ env.md5 other = env.md5 url := fun same => ne (counted.alone mem other mem' same)
      rw [rest]
      refine ⟨⟨fun other e' eq' => ?_, fun other mem other' mem' => ?_, ?_⟩, ?_,
        fun other mem => ?_⟩
      · have ne : other ≠ url := fun same => by
          rw [same] at eq'
          exact absurd (eq'.symm.trans (AList.lookup_erase url m.index)) (by simp)
        have before := (AList.lookup_erase_ne ne).symm.trans eq'
        exact (counted.entry other e' before).onlyTouches touches
          (kept other (mem_of_lookup before) ne)
      · exact counted.distinct other (AList.mem_erase.mp mem).2 other' (AList.mem_erase.mp mem').2
      · have total := counted.total
        have split := @sum_erase _ env m url
        rw [if_pos mem] at split
        rw [totalBytes]
        dsimp only
        rw [sum_erase_congr fun other mem ne => touches.bytes (kept other mem ne)]
        omega
      · exact touches.mono fun base same => ⟨url, mem, same.symm⟩
      · exact (AList.mem_erase.mp mem).2

/-- The sizes of the entries that `makeRoomForNewEntry` removes can be read when their turn
comes. -/
def MakesRoom (env : Environment) : Nat → CurlCacheManager Job → Prop
  | 0, _ => True
  | count + 1, m => m.storageSizeLimit < m.currentStorageSize →
    ∀ url, m.lruEntryList.getLast? = some url →
      MeasuredAt env m url ∧ MakesRoom env count (m.invalidateCacheEntry env url)

theorem makesRoom_of_le (count : Nat) (le : m.currentStorageSize ≤ m.storageSizeLimit) :
    MakesRoom env count m := by
  cases count with
  | zero => trivial
  | succ count => exact fun exceeds => absurd exceeds (Nat.not_lt.mpr le)

theorem Counted.makeRoom {count : Nat} (counted : Counted env extra m)
    (room : MakesRoom env count m) :
    Counted env extra (makeRoom env count m) ∧
      OnlyTouches (Bases env m) m.files (makeRoom env count m).files ∧
      ∀ other ∈ (makeRoom env count m).index, other ∈ m.index := by
  induction count generalizing m with
  | zero => exact ⟨counted, .refl _ _, fun _ mem => mem⟩
  | succ count ih =>
    rw [CurlCacheManager.makeRoom]
    split_ifs with exceeds
    · cases last : m.lruEntryList.getLast? with
      | none => exact ⟨counted, .refl _ _, fun _ mem => mem⟩
      | some url =>
        obtain ⟨measured, room⟩ := room exceeds url last
        obtain ⟨counted', touches, sub⟩ := counted.invalidateCacheEntry measured
        obtain ⟨counted'', touches', sub'⟩ := ih counted' room
        refine ⟨counted'', touches.trans (touches'.mono ?_),
          fun other mem => sub other (sub' other mem)⟩
        rintro base ⟨url, mem, rfl⟩
        exact ⟨url, sub url mem, rfl⟩
    · exact ⟨counted, .refl _ _, fun _ mem => mem⟩

theorem Counted.makeRoomForNewEntry (counted : Counted env extra m)
    (room : MakesRoom env m.lruEntryList.length m) :
    Counted env extra (m.makeRoomForNewEntry env) ∧
      OnlyTouches (Bases env m) m.files (m.makeRoomForNewEntry env).files ∧
      ∀ other ∈ (m.makeRoomForNewEntry env).index, other ∈ m.index := by
  unfold CurlCacheManager.makeRoomForNewEntry
  split_ifs
  · exact ⟨counted, .refl _ _, fun _ mem => mem⟩
  · exact counted.makeRoom room

/-! ## The index file -/

/-- A line of the index file: no entry has its files, the `DirCache` remembers no wrong size, and
the size does not overflow. -/
structure LineAccounted (env : Environment) (m : CurlCacheManager Job) (url : Text) : Prop where
  alone : ¬ Bases env m (env.md5 url)
  fresh : m.files.Fresh (env.md5 url)
  fits : m.files.bytes (env.md5 url) < m.storageSizeLimit →
    m.currentStorageSize + m.files.bytes (env.md5 url) < 2 ^ 32
  room : ∀ e files, (CurlCacheEntry.new (env.md5 url) none : CurlCacheEntry Job).readEntrySize
      env.outcomes (m.files.initOnce env.outcomes) = (e, files) →
    MakesRoom env m.lruEntryList.length
      { m with currentStorageSize := addSize m.currentStorageSize e.entrySize, files }

theorem Counted.loadEntry (counted : Counted env 0 m) (line : LineAccounted env m url) :
    Counted env 0 (m.loadEntry env url) := by
  unfold CurlCacheManager.loadEntry
  dsimp only
  generalize sized_eq : CurlCacheEntry.readEntrySize env.outcomes
    (CurlCacheEntry.new (env.md5 url) none : CurlCacheEntry Job)
    (m.files.initOnce env.outcomes) = sized
  obtain ⟨reads, base, closed, size⟩ := readEntrySize_new line.fresh sized_eq
  obtain ⟨e, files⟩ := sized
  dsimp only at *
  have here := counted.withFiles m.lruEntryList reads
  split_ifs with known
  · -- the new entry is counted before it is in the index
    have size := size known.1
    have fits := line.fits (size ▸ known.2)
    have more : Counted env e.entrySize
        { m with currentStorageSize := addSize m.currentStorageSize e.entrySize, files } := by
      refine ⟨here.entry, here.distinct, ?_⟩
      rw [addSize, Nat.mod_eq_of_lt (by omega)]
      exact congrArg (· + e.entrySize) here.total
    obtain ⟨room, touches, sub⟩ := more.makeRoomForNewEntry (line.room e files sized_eq)
    generalize CurlCacheManager.makeRoomForNewEntry env
      { m with currentStorageSize := addSize m.currentStorageSize e.entrySize, files } = m' at *
    have bytes : m'.files.bytes (env.md5 url) = e.entrySize := by
      rw [touches.bytes line.alone, reads.bytes_eq, size]
    refine room.insert (.refl _ _) ⟨base, fun _ => bytes.symm, ?_, fun isOpen => ?_⟩
      (fun other mem eq => absurd ⟨other, sub other mem, eq⟩ line.alone) ?_
    · exact touches.fresh _ line.alone (reads.fresh _ id line.fresh)
    · rw [closed] at isOpen
      cases isOpen
    · rw [if_neg fun mem => line.alone ⟨url, sub url mem, rfl⟩]
      dsimp only [touch]
      omega
  · have touches : OnlyTouches (· = env.md5 url) m.files (e.invalidate env.outcomes files) := by
      rw [← base]
      exact (reads.onlyTouches _).trans onlyTouches_invalidate
    have kept (other : Text) (mem : other ∈ m.index) : ¬ env.md5 other = env.md5 url :=
      fun eq => line.alone ⟨other, mem, eq⟩
    refine ⟨fun other e' eq => ?_, counted.distinct, ?_⟩
    · exact (counted.entry other e' eq).onlyTouches touches (kept other (mem_of_lookup eq))
    · rw [counted.total, totalBytes, totalBytes]
      refine congrArg (·.sum + 0) (List.map_congr_left fun other mem => ?_)
      exact (touches.bytes (kept other (AList.mem_keys.mpr mem))).symm

/-! ## Responses -/

section Open

variable {fs fs' : FileSystem} {kind : FileKind} {base : Text} {outcomes : Nat → Outcome}

/-- The `DirCache` remembers of the files at most that they are empty. -/
def RemembersEmpty (fs : FileSystem) (base : Text) : Prop :=
  ∀ kind size, fs.remembered (kind, base) = some size → size = 0 ∧ fs.size (kind, base) = some 0

theorem RemembersEmpty.fresh (h : RemembersEmpty fs base) : fs.Fresh base := by
  intro kind size eq
  obtain ⟨rfl, size⟩ := h kind size eq
  exact size

/-- One of the files is left without bytes. -/
structure LeavesEmpty (fs fs' : FileSystem) (kind : FileKind) (base : Text) : Prop where
  remembers : RemembersEmpty fs' base
  touches : OnlyTouches (· = base) fs fs'
  empty : (fs'.size (kind, base)).getD 0 = 0
  other : ∀ other ≠ kind, fs'.size (other, base) = fs.size (other, base)

theorem RemembersEmpty.openForWrite (h : RemembersEmpty fs base)
    (empty : (outcomes fs.operations).succeeds = true ∨ (fs.size (kind, base)).getD 0 = 0) :
    LeavesEmpty fs (fs.openForWrite outcomes (kind, base)).2 kind base := by
  unfold FileSystem.openForWrite
  split_ifs with opens
  · refine ⟨fun kind' size eq => ?_, onlyTouches_update fs (kind, base) _, ?_, fun other ne => ?_⟩
    · obtain ⟨zero, size⟩ := h kind' size eq
      refine ⟨zero, ?_⟩
      dsimp only
      rw [Function.update_apply, size, ite_self]
    · simp
    · simp [ne]
  · exact ⟨h, reads_next.onlyTouches _, empty.resolve_left opens, fun _ _ => rfl⟩

theorem operations_openForWrite (file : FileName) :
    (fs.openForWrite outcomes file).2.operations = fs.operations + 1 := by
  unfold FileSystem.openForWrite
  split_ifs <;> rfl

theorem fst_openForWrite (file : FileName) :
    (fs.openForWrite outcomes file).1 = (outcomes fs.operations).succeeds := by
  unfold FileSystem.openForWrite
  split_ifs with opens
  · exact opens.symm
  · exact (Bool.eq_false_iff.mpr opens).symm

theorem isSome_openForWrite {file : FileName} (opened : (fs.openForWrite outcomes file).1 = true) :
    ((fs.openForWrite outcomes file).2.size file).isSome = true := by
  rw [fst_openForWrite] at opened
  simp [FileSystem.openForWrite, opened]

/-- The header file is opened and none of its lines is written, or it was empty. -/
theorem RemembersEmpty.saveResponseHeaders (h : RemembersEmpty fs e.basename) {response : Response}
    (header : if (outcomes fs.operations).succeeds then
        ∀ i < response.httpHeaderFields.length, (outcomes (fs.operations + 1 + i)).written = 0
      else (fs.size e.headerFile).getD 0 = 0) :
    LeavesEmpty fs (e.saveResponseHeaders outcomes response fs).2 .header e.basename := by
  unfold CurlCacheEntry.saveResponseHeaders
  dsimp only
  rw [fst_openForWrite]
  split_ifs at header ⊢ with opens
  · obtain ⟨remembers, touches, empty, other⟩ :=
      @openForWrite fs .header e.basename outcomes h (.inl opens)
    rw [foldl_writeToFile (fun field : Text × Text => field.1.length + 2 + field.2.length + 1)]
    · exact ⟨remembers, touches.trans ⟨fun _ _ _ => rfl, fun _ _ h => h⟩, empty, other⟩
    · rwa [operations_openForWrite]
  · exact h.openForWrite (.inr header)

end Open

/-- A new response is stored without bytes that are not counted: no other entry has its files, a
file with bytes is opened and so loses them, and no header line is written. Before the header file
is opened, the directory is listed, the time of the header file is read and the content file is
opened. -/
structure StoreAccounted (env : Environment) (m : CurlCacheManager Job) (url : Text)
    (response : Response) : Prop where
  alone : ¬ Bases env m (env.md5 url)
  remembers : RemembersEmpty (m.files.initOnce env.outcomes) (env.md5 url)
  content : (env.outcomes ((m.files.initOnce env.outcomes).operations + 1)).succeeds = true ∨
    (m.files.size (.content, env.md5 url)).getD 0 = 0
  header : if (env.outcomes ((m.files.initOnce env.outcomes).operations + 2)).succeeds then
      ∀ i < response.httpHeaderFields.length,
        (env.outcomes ((m.files.initOnce env.outcomes).operations + 3 + i)).written = 0
    else (m.files.size (.header, env.md5 url)).getD 0 = 0

theorem Counted.storeResponse (counted : Counted env 0 m) (now : ℚ) (job : Job)
    {response : Response}
    (measured : MeasuredAt env m url)
    (stored : isCacheable response = true →
      StoreAccounted env (m.invalidateCacheEntry env url) url response) :
    Counted env 0 (m.storeResponse env now job url response) := by
  unfold CurlCacheManager.storeResponse
  dsimp only
  have without := (counted.invalidateCacheEntry measured).1
  generalize m.invalidateCacheEntry env url = m at without stored ⊢
  split_ifs with parsed
  · rw [parseResponseHeaders_fst] at parsed
    obtain ⟨alone, remembers, content, header⟩ := stored parsed
    obtain ⟨expireDate, eq⟩ := @parseResponseHeaders_of_isCacheable _ env.outcomes
      (m.files.initOnce env.outcomes)
      (CurlCacheEntry.new (env.md5 url) (some job)) now response parsed
    rw [eq]
    have reads : Reads m.files (m.files.initOnce env.outcomes).next :=
      reads_initOnce.trans reads_next
    rw [← reads.size_eq] at content header
    have opened := @RemembersEmpty.openForWrite (m.files.initOnce env.outcomes).next .content _
      env.outcomes remembers content
    simp only [setIsLoading, openContentFile, CurlCacheEntry.new, contentFile, if_true,
      Bool.false_eq_true, if_false]
    unfold CurlCacheManager.saveResponseHeaders
    rw [CurlCacheManager.setEntry, AList.lookup_insert]
    dsimp only
    -- the entry that is being loaded
    generalize entry : (CurlCacheEntry.mk (env.md5 url) _ 0 expireDate true true [] (some job)) = e
    have base : e.basename = env.md5 url := by rw [← entry]
    have saved := @RemembersEmpty.saveResponseHeaders _ e _ env.outcomes
      (base.symm ▸ opened.remembers) response (by
        rw [operations_openForWrite, headerFile, base, opened.other .header (by decide)]
        exact header)
    rw [base] at saved
    generalize CurlCacheEntry.saveResponseHeaders env.outcomes response e _ = headers at *
    have bytes : headers.2.bytes (env.md5 url) = 0 := by
      rw [FileSystem.bytes, saved.empty, saved.other .content (by decide), opened.empty]
    have new : Counted env 0 { m.touch url with
        index := m.index.insert url e, files := headers.2 } := by
      refine without.insert (((reads.onlyTouches _).trans opened.touches).trans saved.touches)
        ⟨base, fun ne => absurd (by rw [← entry]) ne, saved.remembers.fresh, fun isOpen => ?_⟩
        (fun other mem eq => absurd ⟨other, mem, eq⟩ alone) ?_
      · rw [saved.other .content (by decide)]
        exact isSome_openForWrite (by rw [← entry] at isOpen; exact isOpen)
      · rw [if_neg fun mem => alone ⟨url, mem, rfl⟩, bytes]
        rfl
    split_ifs
    · exact new
    · refine (new.invalidateCacheEntry fun e' eq' => .inr (.inl ?_)).1
      rw [(new.entry url e' eq').basename]
      exact bytes
  · exact without.withFiles _ (reads_initOnce.trans (reads_parseResponseHeaders now response).1)

/-- A response that is read from the cache can be read, or its entry is removed with its size; a new
response is not stored while its entry is in use, or takes the place of an entry whose size is
known; and any other removes such an entry. -/
def ResponseAccounted (env : Environment) (m : CurlCacheManager Job) (url : Text)
    (response : Response) : Prop :=
  if response.isFromDiskCache then
    ∀ e, m.index.lookup url = some e → (e.readCachedData env.outcomes m.files).1 = true ∨
      e.Measured env.outcomes (e.readCachedData env.outcomes m.files).2
  else if response.httpStatusCode = 200 then
    m.isBusy url = true ∨ MeasuredAt env m url ∧
      (isCacheable response = true →
        StoreAccounted env (m.invalidateCacheEntry env url) url response)
  else MeasuredAt env m url

theorem Counted.readCachedData (counted : Counted env extra m)
    (read : ∀ e, m.index.lookup url = some e → (e.readCachedData env.outcomes m.files).1 = true ∨
      e.Measured env.outcomes (e.readCachedData env.outcomes m.files).2) :
    Counted env extra (m.readCachedData env url) := by
  unfold CurlCacheManager.readCachedData
  split
  · exact counted
  next e eq =>
    have after := counted.withFiles (prependOrMoveToFirst url m.lruEntryList)
      (@reads_loadFileToBuffer env.outcomes m.files e.contentFile)
    dsimp only
    split_ifs with fails
    · exact after
    · refine (after.invalidateCacheEntry fun e' eq' => ?_).1
      cases eq.symm.trans eq'
      exact (read e eq).resolve_left fails

/-- Clients come and go, and a load ends. -/
theorem Counted.setEntry_of_eq (counted : Counted env extra m) (eq : m.index.lookup url = some e)
    (base : e'.basename = e.basename)
    (isOpen : e'.contentFileIsOpen = true → e.contentFileIsOpen = true)
    (size : e'.entrySize = e.entrySize) : Counted env extra (m.setEntry url e' m.files) :=
  counted.setEntry eq ⟨base, isOpen, fun _ => .inl size⟩ (.refl _ _)

theorem Counted.removeCacheEntryClient [DecidableEq Job] (counted : Counted env extra m)
    (job : Job) :
    Counted env extra (m.removeCacheEntryClient url job) := by
  unfold CurlCacheManager.removeCacheEntryClient
  split_ifs
  · exact counted
  · split
    · exact counted
    next e eq => exact counted.setEntry_of_eq eq rfl id rfl

theorem Counted.addCacheEntryClient [DecidableEq Job] (counted : Counted env extra m) (job : Job) :
    Counted env extra (m.addCacheEntryClient url job) := by
  unfold CurlCacheManager.addCacheEntryClient
  split_ifs
  · exact counted
  · split
    · exact counted
    next e eq => exact counted.setEntry_of_eq eq rfl id rfl

theorem Counted.didFinishLoading (counted : Counted env extra m) :
    Counted env extra (m.didFinishLoading env url) := by
  unfold CurlCacheManager.didFinishLoading
  split_ifs
  · exact counted
  · split
    · exact counted
    next e eq =>
      exact counted.setEntry_of_eq eq rfl (fun h => absurd h (by simp [setIsLoading])) rfl

/-! ## Data -/

/-- The state in which room is made after data have arrived. -/
def afterData (env : Environment) (url : Text) (size : Nat) (e : CurlCacheEntry Job)
    (m : CurlCacheManager Job) : CurlCacheManager Job :=
  let saved := e.saveCachedData env.outcomes size m.files
  { m.setEntry url saved.2.1 saved.2.2 with
    currentStorageSize := addSize m.currentStorageSize size }.touch url

/-- Data that are saved are written as a whole, to a file whose size is not yet remembered; if the
file cannot be opened, the size of the entry that is removed is known. -/
def DataAccounted (env : Environment) (m : CurlCacheManager Job) (url : Text) (size : Nat)
    (e : CurlCacheEntry Job) : Prop :=
  if e.contentFileIsOpen || (env.outcomes m.files.operations).succeeds then
    e.entrySize = 0 ∧ m.files.remembered e.contentFile = none ∧
      e.Appends env.outcomes size m.files ∧ m.currentStorageSize + size < 2 ^ 32 ∧
      MakesRoom env (m.afterData env url size e).lruEntryList.length (m.afterData env url size e)
  else e.Measured env.outcomes m.files.next

theorem Counted.didReceiveData [DecidableEq Job] (counted : Counted env 0 m) {job : Job}
    {size : Nat}
    (data : ∀ e, m.index.lookup url = some e → e.job = some job → DataAccounted env m url size e) :
    Counted env 0 (m.didReceiveData env job url size) := by
  unfold CurlCacheManager.didReceiveData
  split_ifs
  · exact counted
  · split
    · exact counted
    next e eq =>
      have mem := mem_of_lookup eq
      have describes := counted.entry url e eq
      split_ifs with other
      · exact counted
      · have data := data e eq (not_not.mp other)
        rw [DataAccounted, ← saveCachedData_fst size] at data
        dsimp only
        split_ifs at data ⊢ with isSaved
        · obtain ⟨unknown, forgotten, appends, fits, room⟩ := data
          rw [contentFile, describes.basename] at forgotten
          obtain ⟨touches, bytes, describes'⟩ :=
            saveCachedData_spec describes unknown forgotten appends isSaved
          have after : Counted env 0 (m.afterData env url size e) := by
            refine counted.insert touches describes' (counted.alone mem) ?_
            dsimp only [CurlCacheManager.setEntry]
            rw [if_pos mem, bytes, addSize, Nat.mod_eq_of_lt fits]
            omega
          exact (after.makeRoomForNewEntry room).1
        · rw [saveCachedData_of_fails isSaved]
          refine ((counted.setEntry eq (.refl _ e) reads_next).invalidateCacheEntry
            fun e' eq' => ?_).1
          rw [CurlCacheManager.setEntry, AList.lookup_insert] at eq'
          cases eq'
          exact data

/-! ## Steps -/

theorem Counted.isCached (counted : Counted env extra m) {now : ℚ}
    (cached : ∀ e, m.index.lookup url = some e → (e.isCached env.outcomes now m.files).1 = true ∨
      (e.isCached env.outcomes now m.files).2.1.Measured env.outcomes
        (e.isCached env.outcomes now m.files).2.2) :
    Counted env extra (m.isCached env now url).2 := by
  unfold CurlCacheManager.isCached
  split_ifs
  · exact counted
  · split
    · exact counted
    next e eq =>
      obtain ⟨reads, same⟩ := @CurlCacheEntry.reads_isCached _ env.outcomes m.files e now
      have after := counted.setEntry eq same reads
      dsimp only
      split_ifs with fails
      · exact after
      · refine (after.invalidateCacheEntry fun e' eq' => ?_).1
        rw [CurlCacheManager.setEntry, AList.lookup_insert] at eq'
        cases eq'
        exact (cached e eq).resolve_left fails

/-- The condition on a step of a manager that is not disabled. -/
def AccountedStep [DecidableEq Job] (env : Environment) (m : CurlCacheManager Job) : Op Job → Prop
  | .didReceiveResponse _ job cancelled url response =>
    cancelled = true ∨ ResponseAccounted env (m.removeCacheEntryClient url job) url response
  | .didReceiveData job url size =>
    ∀ e, m.index.lookup url = some e → e.job = some job → DataAccounted env m url size e
  | .didFail url => MeasuredAt env m url
  | .didCancel url => MeasuredAt env m url
  | .isCached now url =>
    ∀ e, m.index.lookup url = some e → (e.isCached env.outcomes now m.files).1 = true ∨
      (e.isCached env.outcomes now m.files).2.1.Measured env.outcomes
        (e.isCached env.outcomes now m.files).2.2
  | .loadIndex content =>
    ∀ c, content = some c →
      Runs.Every (fun m url => some (m.loadEntry env url)) (LineAccounted env) m (indexURLs c)
  | _ => True

/-- Every entry that the step removes is removed with its size, and nothing is written to a file
that is not added to the size. -/
def Accounted [DecidableEq Job] (env : Environment) (m : CurlCacheManager Job) (op : Op Job) :
    Prop :=
  m.disabled = true ∨ AccountedStep env m op

theorem step_of_disabled [DecidableEq Job] (disabled : m.disabled = true) (op : Op Job) :
    m.step env op = m := by
  cases op <;>
    simp [step, disabled, CurlCacheManager.didReceiveResponse, CurlCacheManager.didReceiveData,
      CurlCacheManager.didFinishLoading, didFail, didCancel, CurlCacheManager.invalidateCacheEntry,
      CurlCacheManager.isCached, loadIndex, CurlCacheManager.addCacheEntryClient,
      CurlCacheManager.removeCacheEntryClient]

theorem Counted.loadIndex (counted : Counted env 0 m) {content : Option Text}
    (lines : ∀ c, content = some c →
      Runs.Every (fun m url => some (m.loadEntry env url)) (LineAccounted env) m (indexURLs c)) :
    Counted env 0 (m.loadIndex env content) := by
  unfold CurlCacheManager.loadIndex
  split_ifs
  · exact counted
  · cases content with
    | none => exact counted
    | some content =>
      have lines := lines content rfl
      dsimp only
      generalize indexURLs content = urls at lines ⊢
      clear * - counted lines
      induction urls generalizing m with
      | nil => exact counted
      | cons url urls ih => exact ih (counted.loadEntry lines.1) (lines.2 _ rfl)

theorem Counted.step [DecidableEq Job] (counted : Counted env 0 m) {op : Op Job}
    (accounted : Accounted env m op) : Counted env 0 (m.step env op) := by
  rcases accounted with disabled | accounted
  · rw [step_of_disabled disabled]
    exact counted
  cases op with
  | didReceiveResponse now job cancelled url response =>
    simp only [CurlCacheManager.step]
    unfold CurlCacheManager.didReceiveResponse
    dsimp only
    have without := @Counted.removeCacheEntryClient _ _ _ url _ _ counted job
    split_ifs with off fromCache ok busy
    · exact counted
    all_goals
      rw [Bool.or_eq_true, not_or] at off
      have accounted := accounted.resolve_left off.2
      unfold ResponseAccounted at accounted
      split_ifs at accounted
    · exact (without.readCachedData accounted).withFiles _ (.refl _ _)
    · exact without
    · obtain ⟨measured, stored⟩ := accounted.resolve_left busy
      exact without.storeResponse now job measured stored
    · exact (without.invalidateCacheEntry accounted).1
  | didReceiveData job url size => exact counted.didReceiveData accounted
  | didFinishLoading url => exact counted.didFinishLoading
  | didFail url => exact (counted.invalidateCacheEntry accounted).1
  | didCancel url => exact (counted.invalidateCacheEntry accounted).1
  | isCached now url => exact counted.isCached accounted
  | loadIndex content => exact counted.loadIndex accounted
  | addCacheEntryClient url job => exact counted.addCacheEntryClient job
  | removeCacheEntryClient url job => exact counted.removeCacheEntryClient job

theorem counted_init (limit : Nat) (size : FileName → Option Nat) :
    Counted env 0 (init limit size : CurlCacheManager Job) where
  entry url e eq := by
    rw [init, AList.lookup_empty] at eq
    cases eq
  distinct url mem := absurd mem (AList.notMem_empty url)
  total := rfl

/-! ## The cache -/

/-- In every run, the list and the index hold the same URLs all the time if and only if every
response that is read from the cache can be read. The size is that of the files all the time as long
as every step is accounted for. Making room always ends below the limit or with an empty list. -/
theorem run_consistent [DecidableEq Job] (env : Environment) (limit : Nat)
    (size : FileName → Option Nat) (ops : List (Op Job)) :
    (Runs.Always (steps env) SameURLs (init limit size) ops ↔
      Runs.Every (steps env) (Readable env) (init limit size) ops) ∧
    (Runs.Every (steps env) (Accounted env) (init limit size) ops →
      Runs.Always (steps env) (fun m => m.currentStorageSize = totalBytes env m)
        (init limit size) ops) ∧
    ∀ m : CurlCacheManager Job, m.disabled = false →
      (m.makeRoomForNewEntry env).currentStorageSize ≤
          (m.makeRoomForNewEntry env).storageSizeLimit ∨
        (m.makeRoomForNewEntry env).lruEntryList = [] := by
  refine ⟨(sameURLs_init limit size).always_iff ops, fun accounted => ?_,
    fun _ enabled => le_limit_makeRoomForNewEntry enabled⟩
  exact Runs.always_of_every Counted.total
    (fun counted accounted => ⟨_, rfl, counted.step accounted⟩)
    (counted_init limit size) accounted

section Examples

/-- A response with an entity tag and no other header. -/
def taggedResponse (isFromDiskCache : Bool) : Response where
  isFromDiskCache := isFromDiskCache
  httpStatusCode := 200
  httpHeaderFields := [(text "ETag", text "x")]
  containsNoCache := false
  containsNoStore := false
  containsMustRevalidate := false
  hasCacheValidatorFields := true
  maxAge := some 1000
  lastModified := none
  date := none
  expires := none
  hasETag := true
  hasLastModified := false

/-- A file system in which the operations of the given numbers fail. -/
def failingAt (fails : Nat → Bool) : Environment where
  md5 url := url
  outcomes n := ⟨!fails n, 100, fun _ => true, some 0, taggedResponse true⟩

/-- A file system in which the operation of the given number writes nothing. -/
def unwrittenAt (operation : Nat) : Environment where
  md5 url := url
  outcomes n := ⟨true, if n = operation then 0 else 100, fun _ => true, some 0, taggedResponse true⟩

/-- A response is stored without its header line, gets seven bytes of data, is asked for and then
fails. -/
def storedOps : List (Op Nat) :=
  [.didReceiveResponse 0 1 false (text "u") (taggedResponse false), .didReceiveData 1 (text "u") 7,
    .didFinishLoading (text "u"), .isCached 500 (text "u"), .didFail (text "u")]

theorem forall_lookup {P : CurlCacheEntry Job → Prop} (isSome : (m.index.lookup url).isSome = true)
    (h : P ((m.index.lookup url).get isSome)) (e : CurlCacheEntry Job)
    (eq : m.index.lookup url = some e) : P e := by
  rwa [Option.get_of_eq_some isSome eq] at h

theorem run_consistent_of_stored :
    ((Runs.run (steps (unwrittenAt 4)) (init 50 fun _ => none) (storedOps.take 4)).map
        (·.currentStorageSize)) = some 7 ∧
      Runs.Always (steps (unwrittenAt 4))
        (fun m => m.currentStorageSize = totalBytes (unwrittenAt 4) m) (init 50 fun _ => none)
        storedOps := by
  refine ⟨by decide +kernel, (run_consistent (unwrittenAt 4) 50 (fun _ => none) storedOps).2.1 ?_⟩
  refine ⟨.inr (.inr ?_), ?_⟩
  · refine .inr ⟨nofun, fun _ => ⟨?_, nofun, .inl rfl, ?_⟩⟩
    · rintro ⟨other, mem, -⟩
      exact AList.notMem_empty other mem
    · decide +kernel
  rintro _ ⟨⟩
  refine ⟨.inr (forall_lookup (by decide +kernel) fun _ => ?_), ?_⟩
  · refine ⟨by decide +kernel, by decide +kernel, ?_, by decide +kernel, makesRoom_of_le _ ?_⟩
    · unfold Appends
      decide +kernel
    · decide +kernel
  rintro _ ⟨⟩
  refine ⟨.inr trivial, ?_⟩
  rintro _ ⟨⟩
  refine ⟨.inr (forall_lookup (by decide +kernel) (.inl (by decide +kernel))), ?_⟩
  rintro _ ⟨⟩
  refine ⟨.inr (forall_lookup (by decide +kernel) (.inl (by decide +kernel))), ?_⟩
  rintro _ ⟨⟩
  trivial

/-- A response is stored in an empty cache. -/
def storedRun : CurlCacheManager Nat :=
  (init 50 fun _ => none).step (failingAt fun _ => false)
    (.didReceiveResponse 0 1 false (text "u") (taggedResponse false))

/-- The two files of one URL. -/
def oneURL (file : FileName) : Option Nat :=
  if file = (.header, text "u") then some 5
  else if file = (.content, text "u") then some 7 else none

/-- The content of an entry cannot be read. -/
def unreadableRun : CurlCacheManager Nat :=
  ((init 50 oneURL).step (failingAt (· != 0)) (.loadIndex (some (text "u\n")))).step
    (failingAt (· != 0)) (.didReceiveResponse 0 1 false (text "u") (taggedResponse true))

/-- A stored response adds eight bytes to the header file and nothing to the size. An entry whose
content cannot be read leaves its URL in the list. -/
theorem run_not_consistent :
    (storedRun.currentStorageSize = 0 ∧ totalBytes (failingAt fun _ => false) storedRun = 8) ∧
      unreadableRun.lruEntryList = [text "u"] ∧ unreadableRun.index.keys = [] := by
  refine ⟨⟨by decide +kernel, by decide +kernel⟩, by decide +kernel, by decide +kernel⟩

end Examples

end CurlCacheManager

end Odyssey.Network.DiskCache
