import Odyssey.Network.DiskCache.CurlCacheSize

/-!
# The index file of the disk cache

`saveIndex` writes the URLs with the one used last in front, each followed by a newline. `loadIndex`
splits the file without empty lines, but leaves out the last of several lines, and puts each URL
that it reads in front of those before.
-/
namespace Odyssey.Network.DiskCache

open WTF

/-- `String::latin1`. -/
def latin1 (s : Text) : Text := s.map fun c => if 0xff < c then 63 else c

namespace CurlCacheManager

variable {Job : Type}

def isWritten (m : CurlCacheManager Job) (url : Text) : Bool :=
  match m.index.lookup url with
  | none => false
  | some e => !e.isLoading

/-- What is written to the index file. -/
def indexContent (m : CurlCacheManager Job) : Text :=
  (m.lruEntryList.filter m.isWritten).flatMap fun url => latin1 url ++ [10]

/-- `saveIndex`, with the content of the index file before and after. The file is deleted first; it
may not be possible to open it again. -/
def saveIndex (opens : Bool) (file : Option Text) (m : CurlCacheManager Job) : Option Text :=
  if m.disabled then file else if opens then some m.indexContent else none

/-- A new manager for the directory, which loads the index file. -/
def reload (env : Environment) (file : Option Text) (m : CurlCacheManager Job) :
    CurlCacheManager Job :=
  (init m.storageSizeLimit m.files.size).loadIndex env (m.saveIndex true file)

/-- No entry is loading, all files exist, and the URLs can be written. -/
structure Savable (env : Environment) (m : CurlCacheManager Job) : Prop where
  enabled : m.disabled = false
  sameURLs : SameURLs m
  notLoading : ∀ url ∈ m.lruEntryList, ∀ e ∈ m.index.lookup url, e.isLoading = false
  latin1 : ∀ url ∈ m.lruEntryList, ∀ c ∈ url, c ≤ 0xff
  oneLine : ∀ url ∈ m.lruEntryList, 10 ∉ url
  stripped : ∀ url ∈ m.lruEntryList, stripWhiteSpace url = url
  header : ∀ url ∈ m.lruEntryList, (m.files.size (.header, env.md5 url)).isSome = true
  content : ∀ url ∈ m.lruEntryList, (m.files.size (.content, env.md5 url)).isSome = true

/-- The index has the same URLs in the same order. -/
def Reloads (env : Environment) (m : CurlCacheManager Job) : Prop :=
  ∀ file, (m.reload env file).lruEntryList = m.lruEntryList ∧
    ∀ url, url ∈ (m.reload env file).index ↔ url ∈ m.index

/-! ## The lines -/

variable {env : Environment} {m : CurlCacheManager Job} {url : Text}

theorem splitOn_lines (lines : List Text) (h : ∀ line ∈ lines, 10 ∉ line) :
    (lines.flatMap (· ++ [10])).splitOn 10 = lines ++ [[]] := by
  induction lines with
  | nil => rfl
  | cons line lines ih =>
    obtain ⟨first, rest⟩ := List.forall_mem_cons.mp h
    have single := List.splitOn_eq_singleton first
    have ih := ih rest
    rw [List.splitOn_eq_splitOnP] at single ih ⊢
    rw [List.flatMap_cons, List.append_assoc, List.singleton_append,
      List.splitOnP_append_cons _ _ (by rfl), single, ih]
    rfl

theorem latin1_eq (h : ∀ c ∈ url, c ≤ 0xff) : DiskCache.latin1 url = url :=
  (List.map_congr_left fun c mem => if_neg (UInt16.not_lt.mpr (h c mem))).trans (List.map_id _)

/-- The lines that are found in the index file. -/
theorem Savable.split_indexContent (savable : Savable env m) :
    m.indexContent.split 10 false = m.lruEntryList.filter fun url => !url.isEmpty := by
  have written : m.lruEntryList.filter m.isWritten = m.lruEntryList := by
    refine List.filter_eq_self.mpr fun url mem => ?_
    obtain ⟨e, eq⟩ := mem_index_iff.mp ((savable.sameURLs.mem_iff url).mp mem)
    rw [isWritten, eq]
    simpa using savable.notLoading url mem e eq
  have lines : m.indexContent = m.lruEntryList.flatMap (· ++ [10]) := by
    rw [indexContent, written]
    refine List.flatMap_congr fun url mem => ?_
    rw [latin1_eq (savable.latin1 url mem)]
  rw [lines, Text.split, if_neg Bool.false_ne_true, splitOn_lines _ savable.oneLine]
  simp

theorem Savable.indexURLs_indexContent (savable : Savable env m) :
    indexURLs m.indexContent =
      let lines := m.lruEntryList.filter fun url => !url.isEmpty
      if 1 < lines.length then lines.dropLast else lines := by
  have strip {lines : List Text} (sub : ∀ line ∈ lines, line ∈ m.lruEntryList) :
      lines.map stripWhiteSpace = lines :=
    (List.map_congr_left fun line mem => savable.stripped line (sub line mem)).trans (List.map_id _)
  rw [indexURLs, savable.split_indexContent]
  dsimp only
  split_ifs
  · exact strip fun line mem => List.mem_of_mem_filter ((List.dropLast_sublist _).subset mem)
  · exact strip fun line mem => List.mem_of_mem_filter mem

theorem Savable.reload_eq (savable : Savable env m) (file : Option Text) :
    m.reload env file = (indexURLs m.indexContent).foldl (loadEntry env)
      (init m.storageSizeLimit m.files.size) := by
  have eq : m.saveIndex true file = some m.indexContent := by
    rw [saveIndex, savable.enabled]
    rfl
  rw [reload, eq]
  rfl

/-! ## Loading lines -/

theorem length_makeRoomForNewEntry_le :
    (m.makeRoomForNewEntry env).lruEntryList.length ≤ m.lruEntryList.length := by
  refine makeRoomForNewEntry_induction (P := fun m' => m'.lruEntryList.length ≤ _) ?_ le_rfl
  intro m' url le
  refine le_trans ?_ le
  unfold invalidateCacheEntry
  split_ifs
  · exact le_rfl
  · split <;> exact List.length_erase_le

theorem lruEntryList_makeRoomForNewEntry_nil (empty : m.lruEntryList = []) :
    (m.makeRoomForNewEntry env).lruEntryList = [] := by
  have := @length_makeRoomForNewEntry_le Job env m
  rw [empty] at this
  exact List.eq_nil_of_length_eq_zero (Nat.le_zero.mp this)

theorem length_loadEntry_le :
    (m.loadEntry env url).lruEntryList.length ≤ m.lruEntryList.length + 1 := by
  unfold loadEntry
  dsimp only
  split_ifs
  · exact Nat.succ_le_succ (List.length_erase_le.trans length_makeRoomForNewEntry_le)
  · exact Nat.le_succ _

theorem length_foldl_loadEntry_le (urls : List Text) :
    (urls.foldl (loadEntry env) m).lruEntryList.length ≤ m.lruEntryList.length + urls.length := by
  induction urls generalizing m with
  | nil => exact le_rfl
  | cons url urls ih =>
    have := @length_loadEntry_le Job env m url
    have := @ih (m.loadEntry env url)
    rw [List.foldl_cons, List.length_cons]
    omega

/-- With a file system that does not fail, the sizes of files that exist are read. -/
theorem getFileSize_of_succeeds {outcomes : Nat → Outcome} {fs : FileSystem}
    (succeeds : ∀ n, (outcomes n).succeeds = true) {kind : FileKind} {base : Text}
    (fresh : fs.Fresh base) {size : Nat} (eq : fs.size (kind, base) = some size) :
    (fs.getFileSize outcomes (kind, base)).1 = some size := by
  unfold FileSystem.getFileSize
  split
  next cached => rw [← eq, fresh kind _ cached]
  next => rw [if_pos (succeeds _), eq]

theorem entrySize_of_succeeds {outcomes : Nat → Outcome} {fs : FileSystem}
    (succeeds : ∀ n, (outcomes n).succeeds = true) {base : Text} (fresh : fs.Fresh base)
    (header : (fs.size (.header, base)).isSome = true)
    (content : (fs.size (.content, base)).isSome = true) :
    ((CurlCacheEntry.new base none : CurlCacheEntry Job).readEntrySize outcomes fs).1.entrySize =
      fs.bytes base := by
  obtain ⟨headerSize, headerEq⟩ := Option.isSome_iff_exists.mp header
  obtain ⟨contentSize, contentEq⟩ := Option.isSome_iff_exists.mp content
  have reads := @FileSystem.reads_getFileSize outcomes fs (.header, base)
  have first := getFileSize_of_succeeds succeeds fresh headerEq
  have second := getFileSize_of_succeeds succeeds (reads.fresh base id fresh)
    (by rw [reads.size_eq]; exact contentEq)
  simp only [CurlCacheEntry.readEntrySize, CurlCacheEntry.new, CurlCacheEntry.headerFile,
    CurlCacheEntry.contentFile, ne_eq, not_true_eq_false, if_false, first, second,
    FileSystem.bytes, headerEq, contentEq, Option.getD_some]

/-- The first line is loaded if the files are not empty and smaller than the limit. -/
theorem lruEntryList_loadEntry (succeeds : ∀ n, (env.outcomes n).succeeds = true)
    (empty : m.lruEntryList = []) (fresh : m.files.Fresh (env.md5 url))
    (header : (m.files.size (.header, env.md5 url)).isSome = true)
    (content : (m.files.size (.content, env.md5 url)).isSome = true) :
    (m.loadEntry env url).lruEntryList = if m.files.bytes (env.md5 url) ≠ 0 ∧
      m.files.bytes (env.md5 url) < m.storageSizeLimit then [url] else [] := by
  have reads := @FileSystem.reads_initOnce env.outcomes m.files
  have size := @entrySize_of_succeeds Job _ _ succeeds _ (reads.fresh _ id fresh)
    (by rw [reads.size_eq]; exact header) (by rw [reads.size_eq]; exact content)
  rw [reads.bytes_eq] at size
  rw [← size]
  unfold loadEntry
  dsimp only
  split_ifs
  · apply congrArg (prependOrMoveToFirst url) (_ : _ = [])
    apply lruEntryList_makeRoomForNewEntry_nil
    exact empty
  · exact empty

/-- At most one URL, whose entry is not empty and smaller than the limit. -/
def AtMostOne (env : Environment) (m : CurlCacheManager Job) : Prop :=
  m.lruEntryList = [] ∨ ∃ url, m.lruEntryList = [url] ∧ url ≠ [] ∧
    m.files.bytes (env.md5 url) ≠ 0 ∧ m.files.bytes (env.md5 url) < m.storageSizeLimit

/-- An index with several URLs loses one of them. -/
theorem Savable.length_reload_lt (savable : Savable env m) (file : Option Text)
    (many : 1 < m.lruEntryList.length) :
    (m.reload env file).lruEntryList.length < m.lruEntryList.length := by
  have le := @length_foldl_loadEntry_le Job env (init m.storageSizeLimit m.files.size)
    (indexURLs m.indexContent)
  rw [← savable.reload_eq file, savable.indexURLs_indexContent] at le
  have lines := List.length_filter_le (fun url : Text => !url.isEmpty) m.lruEntryList
  have empty :
    (init m.storageSizeLimit m.files.size : CurlCacheManager Job).lruEntryList.length = 0 :=
    rfl
  dsimp only at le
  split_ifs at le with several
  · rw [List.length_dropLast] at le
    omega
  · omega

/-- An index is the same after it has been saved and loaded only if it has at most one URL. -/
theorem reloads_iff (env : Environment) (m : CurlCacheManager Job)
    (succeeds : ∀ n, (env.outcomes n).succeeds = true) (savable : Savable env m) :
    Reloads env m ↔ AtMostOne env m := by
  have urls (file : Option Text) (eq : (m.reload env file).lruEntryList = m.lruEntryList)
      (url : Text) :
      url ∈ (m.reload env file).index ↔ url ∈ m.index := by
    have same : SameURLs (m.reload env file) := (sameURLs_init _ _).loadIndex _
    rw [← same.mem_iff, eq, savable.sameURLs.mem_iff]
  have nothing (file : Option Text) (eq : m.lruEntryList = []) :
      (m.reload env file).lruEntryList = [] := by
    rw [savable.reload_eq, savable.indexURLs_indexContent, eq]
    rfl
  have one {url : Text} (file : Option Text) (eq : m.lruEntryList = [url]) (ne : url ≠ []) :
      (m.reload env file).lruEntryList = if m.files.bytes (env.md5 url) ≠ 0 ∧
        m.files.bytes (env.md5 url) < m.storageSizeLimit then [url] else [] := by
    have mem : url ∈ m.lruEntryList := by
      rw [eq]
      exact List.mem_singleton_self url
    have fresh : (init m.storageSizeLimit m.files.size : CurlCacheManager Job).files.Fresh
        (env.md5 url) := by
      intro kind size known
      cases known
    have first := @lruEntryList_loadEntry Job env (init m.storageSizeLimit m.files.size) url
      succeeds rfl fresh (savable.header url mem) (savable.content url mem)
    rw [savable.reload_eq, savable.indexURLs_indexContent, eq]
    refine Eq.trans ?_ first
    cases url with
    | nil => exact absurd rfl ne
    | cons c url => rfl
  constructor
  · intro reloads
    obtain ⟨same, -⟩ := reloads none
    match eq : m.lruEntryList with
    | [] => exact .inl eq
    | [url] =>
      have ne : url ≠ [] := by
        rintro rfl
        rw [savable.reload_eq, savable.indexURLs_indexContent, eq] at same
        cases same
      rw [one none eq ne, eq] at same
      split_ifs at same with fits
      · exact .inr ⟨url, eq, ne, fits⟩
    | first :: second :: rest =>
      have := savable.length_reload_lt none (by rw [eq]; simp)
      rw [same] at this
      omega
  · rintro (eq | ⟨url, eq, ne, fits⟩) file
    · exact ⟨by rw [nothing file eq, eq], urls file (by rw [nothing file eq, eq])⟩
    · have same : (m.reload env file).lruEntryList = m.lruEntryList := by
        rw [one file eq ne, if_pos fits, eq]
      exact ⟨same, urls file same⟩

section Examples

/-- The files of two URLs. -/
def twoURLs (file : FileName) : Option Nat :=
  if file.2 = text "u" ∨ file.2 = text "v" then some 5 else none

def loaded (content : String) : CurlCacheManager Nat :=
  (init 50 twoURLs).loadIndex (failingAt fun _ => false) (some (text content))

theorem savable_loaded {content : String}
    (letters : (loaded content).lruEntryList.all (fun url => url == text "u" || url == text "v") =
      true)
    (written : (loaded content).lruEntryList.all (loaded content).isWritten = true)
    (enabled : (loaded content).disabled = false) (files : (loaded content).files.size = twoURLs) :
    Savable (failingAt fun _ => false) (loaded content) := by
  simp only [List.all_eq_true, Bool.or_eq_true, beq_iff_eq] at letters
  refine ⟨enabled, (sameURLs_init 50 twoURLs).loadIndex _, fun url mem e eq => ?_,
    fun url mem => ?_, fun url mem => ?_, fun url mem => ?_, fun url mem => ?_, fun url mem => ?_⟩
  · have := List.all_eq_true.mp written url mem
    rw [isWritten, Option.mem_def.mp eq] at this
    simpa using this
  · rcases letters url mem with rfl | rfl <;> simp [text]
  · rcases letters url mem with rfl | rfl <;> simp [text]
  · rcases letters url mem with rfl | rfl <;> rfl
  · rw [files]
    rcases letters url mem with rfl | rfl <;> rfl
  · rw [files]
    rcases letters url mem with rfl | rfl <;> rfl

/-- An index with one URL. -/
theorem reloads_one : Reloads (failingAt fun _ => false) (loaded "u\n") := by
  refine (reloads_iff _ _ (fun _ => rfl) (savable_loaded (by decide +kernel) (by decide +kernel)
    (by decide +kernel) rfl)).mpr (.inr ⟨text "u", by decide +kernel, by decide, ?_⟩)
  decide +kernel

/-- Of two URLs the one used last is left. -/
theorem not_reloads_two : Savable (failingAt fun _ => false) (loaded "u\nv\nw\n") ∧
    (loaded "u\nv\nw\n").lruEntryList = [text "v", text "u"] ∧
    ¬ Reloads (failingAt fun _ => false) (loaded "u\nv\nw\n") := by
  refine ⟨savable_loaded (by decide +kernel) (by decide +kernel) (by decide +kernel) rfl,
    by decide +kernel, fun reloads => ?_⟩
  have := (reloads none).1
  revert this
  decide +kernel

end Examples

end CurlCacheManager

end Odyssey.Network.DiskCache
