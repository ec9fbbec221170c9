import Mathlib.Algebra.GroupWithZero.Nat
import Mathlib.Data.List.Basic

/-!
# Streaming a request body

`FormDataStream::read` is called for the next bytes of the body of an upload until it returns 0,
which cancels the job. The end of an element in memory is noticed in the call that reads its last
byte, the end of a file only by a call that asks for more than is left.
-/
namespace Odyssey.Network

inductive FormDataElement where
  | data (bytes : List UInt8)
  | encodedFile (contents : List UInt8)
deriving DecidableEq, Repr

def FormDataElement.bytes : FormDataElement → List UInt8
  | data bytes => bytes
  | encodedFile contents => contents

/-- The position in the open file, if any, the element that is read and the offset in its data. -/
structure FormDataStream where
  file : Option Nat
  formDataElementIndex : Nat
  formDataElementDataOffset : Nat
deriving DecidableEq, Repr

/-- What is written to the buffer, what is returned and the stream afterwards. -/
structure ReadResult where
  written : List UInt8
  sent : Nat
  stream : FormDataStream
deriving DecidableEq, Repr

namespace FormDataStream

def start : FormDataStream := ⟨none, 0, 0⟩

/-- The call of `fread` on a readable file and what depends on `feof`. -/
def readFile (s : FormDataStream) (contents : List UInt8) (blockSize numberOfBlocks : Nat) :
    ReadResult :=
  let position := s.file.getD 0
  let rest := contents.drop position
  let got := rest.take (blockSize * numberOfBlocks)
  let sent := if blockSize = 0 then 0 else got.length / blockSize
  if rest.length < blockSize * numberOfBlocks then
    ⟨got, sent, { s with file := none, formDataElementIndex := s.formDataElementIndex + 1 }⟩
  else ⟨got, sent, { s with file := some (position + got.length) }⟩

def readData (s : FormDataStream) (bytes : List UInt8) (toSend : Nat) : ReadResult :=
  let elementSize := bytes.length - s.formDataElementDataOffset
  let sent := if toSend < elementSize then toSend else elementSize
  let written := (bytes.drop s.formDataElementDataOffset).take sent
  if sent < elementSize then
    ⟨written, sent, { s with formDataElementDataOffset := s.formDataElementDataOffset + sent }⟩
  else ⟨written, sent, { s with
    formDataElementDataOffset := 0
    formDataElementIndex := s.formDataElementIndex + 1 }⟩

def read (elements : List FormDataElement) (s : FormDataStream) (blockSize numberOfBlocks : Nat) :
    ReadResult :=
  if numberOfBlocks = 0 ∨ (2 ^ 64 - 1) / numberOfBlocks < blockSize then ⟨[], 0, s⟩
  else match elements[s.formDataElementIndex]? with
    | none => ⟨[], 0, s⟩
    | some (.encodedFile contents) => s.readFile contents blockSize numberOfBlocks
    | some (.data bytes) => s.readData bytes (blockSize * numberOfBlocks)

def hasMoreElements (elements : List FormDataElement) (s : FormDataStream) : Bool :=
  decide (s.formDataElementIndex < elements.length)

/-- Calls with the block size 1 and the given block counts: the bytes returned up to the first call
that returns 0, if there is one. -/
def readUntilZero (elements : List FormDataElement) :
    FormDataStream → List Nat → Option (List UInt8)
  | _, [] => none
  | s, count :: counts =>
    let r := s.read elements 1 count
    if r.sent = 0 then some [] else (readUntilZero elements r.stream counts).map (r.written ++ ·)

/-! ## What is left to read -/

/-- The elements that have not been read to their end, the first one without what has been read. -/
def left (elements : List FormDataElement) (s : FormDataStream) : List FormDataElement :=
  match elements.drop s.formDataElementIndex with
  | [] => []
  | .data bytes :: rest => .data (bytes.drop s.formDataElementDataOffset) :: rest
  | .encodedFile contents :: rest => .encodedFile (contents.drop (s.file.getD 0)) :: rest

def unread (elements : List FormDataElement) (s : FormDataStream) : List UInt8 :=
  (s.left elements).flatMap FormDataElement.bytes

/-- What a call for so many bytes returns of the elements, and what it leaves. -/
def readNext : List FormDataElement → Nat → List UInt8 × List FormDataElement
  | [], _ => ([], [])
  | .data bytes :: rest, count =>
    (bytes.take count, if count < bytes.length then .data (bytes.drop count) :: rest else rest)
  | .encodedFile contents :: rest, count =>
    (contents.take count,
      if contents.length < count then rest else .encodedFile (contents.drop count) :: rest)

/-- No file is open unless a file is read and no offset is kept unless data is read. -/
structure Consistent (elements : List FormDataElement) (s : FormDataStream) : Prop where
  file : (∀ contents, elements[s.formDataElementIndex]? ≠ some (.encodedFile contents)) →
    s.file = none
  offset : (∀ bytes, elements[s.formDataElementIndex]? ≠ some (.data bytes)) →
    s.formDataElementDataOffset = 0

variable {elements : List FormDataElement} {s : FormDataStream}

/-- At the beginning of an element all its bytes are left. -/
theorem left_of_fresh (hfile : s.file = none) (hoffset : s.formDataElementDataOffset = 0) :
    s.left elements = elements.drop s.formDataElementIndex := by
  unfold left
  split <;> simp_all

theorem consistent_of_fresh (hfile : s.file = none) (hoffset : s.formDataElementDataOffset = 0) :
    s.Consistent elements := ⟨fun _ => hfile, fun _ => hoffset⟩

theorem drop_of_getElem? {element : FormDataElement} {i : Nat} (h : elements[i]? = some element) :
    elements.drop i = element :: elements.drop (i + 1) := by
  obtain ⟨hlt, rfl⟩ := List.getElem?_eq_some_iff.1 h
  exact List.drop_eq_getElem_cons hlt

theorem left_of_file {contents : List UInt8}
    (h : elements[s.formDataElementIndex]? = some (.encodedFile contents)) :
    s.left elements = .encodedFile (contents.drop (s.file.getD 0)) ::
      elements.drop (s.formDataElementIndex + 1) := by
  rw [left, drop_of_getElem? h]

theorem left_of_data {bytes : List UInt8}
    (h : elements[s.formDataElementIndex]? = some (.data bytes)) :
    s.left elements = .data (bytes.drop s.formDataElementDataOffset) ::
      elements.drop (s.formDataElementIndex + 1) := by
  rw [left, drop_of_getElem? h]

/-- A call takes the next bytes of the first element that is left. -/
structure Reads (elements : List FormDataElement) (s : FormDataStream) (count : Nat)
    (r : ReadResult) : Prop where
  consistent : r.stream.Consistent elements
  sent : r.sent = r.written.length
  written : r.written = (readNext (s.left elements) count).1
  left : r.stream.left elements = (readNext (s.left elements) count).2

theorem reads_readFile (h : s.Consistent elements) {contents : List UInt8}
    (helement : elements[s.formDataElementIndex]? = some (.encodedFile contents)) (count : Nat) :
    Reads elements s count (s.readFile contents 1 count) := by
  have hoffset := h.offset fun bytes hbytes => by simp [helement] at hbytes
  simp only [readFile, Nat.one_mul, Nat.div_one, Nat.one_ne_zero, if_false]
  by_cases hlt : (contents.drop (s.file.getD 0)).length < count
  · rw [if_pos hlt]
    refine ⟨consistent_of_fresh rfl hoffset, rfl, by rw [left_of_file helement, readNext], ?_⟩
    rw [left_of_file helement, readNext, if_pos hlt]
    exact left_of_fresh rfl hoffset
  · rw [if_neg hlt]
    refine ⟨⟨fun hno => absurd helement (hno contents), fun _ => hoffset⟩, rfl,
      by rw [left_of_file helement, readNext], ?_⟩
    rw [left_of_file helement, readNext, if_neg hlt, List.drop_drop]
    dsimp only
    rw [List.length_take_of_le (Nat.le_of_not_lt hlt)]
    exact left_of_file helement

theorem reads_readData (h : s.Consistent elements) {bytes : List UInt8}
    (helement : elements[s.formDataElementIndex]? = some (.data bytes)) (count : Nat) :
    Reads elements s count (s.readData bytes count) := by
  have hfile := h.file fun contents hcontents => by simp [helement] at hcontents
  have hsize := List.length_drop (i := s.formDataElementDataOffset) (l := bytes)
  simp only [readData, ← hsize]
  by_cases hlt : count < (bytes.drop s.formDataElementDataOffset).length
  · rw [if_pos hlt, if_pos hlt]
    refine ⟨⟨fun _ => hfile, fun hno => absurd helement (hno bytes)⟩, ?_,
      by rw [left_of_data helement, readNext], ?_⟩
    · rw [List.length_take_of_le (Nat.le_of_lt hlt)]
    · rw [left_of_data helement, readNext, if_pos hlt, List.drop_drop]
      exact left_of_data helement
  · have hle := Nat.le_of_not_lt hlt
    rw [if_neg hlt, if_neg (Nat.lt_irrefl _), List.take_length]
    refine ⟨consistent_of_fresh hfile rfl, rfl, ?_, ?_⟩
    · rw [left_of_data helement, readNext, List.take_of_length_le hle]
    · rw [left_of_data helement, readNext, if_neg hlt]
      exact left_of_fresh hfile rfl

theorem reads_read (h : s.Consistent elements) {count : Nat} (hpos : 0 < count)
    (hlt : count < 2 ^ 64) : Reads elements s count (s.read elements 1 count) := by
  have hfits : 1 ≤ (2 ^ 64 - 1) / count := Nat.div_pos (by omega) hpos
  rw [read, if_neg (by omega)]
  cases helement : elements[s.formDataElementIndex]? with
  | none =>
    have hnil : s.left elements = [] := by
      rw [left, List.drop_eq_nil_of_le (List.getElem?_eq_none_iff.1 helement)]
    exact ⟨h, rfl, by rw [hnil, readNext], by rw [hnil, readNext]⟩
  | some element =>
    cases element with
    | encodedFile contents => exact reads_readFile h helement count
    | data bytes =>
      dsimp only
      rw [Nat.one_mul]
      exact reads_readData h helement count

/-! ## Sizes and counts -/

/-- The counts behind the shortest beginning that asks for at least so many bytes. -/
def countsAfter : Nat → List Nat → List Nat
  | 0, counts => counts
  | _ + 1, [] => []
  | bytes + 1, count :: counts => countsAfter (bytes + 1 - count) counts

end FormDataStream

open FormDataStream

/-- The end of the element is noticed by a call that returns some of its bytes, where `counts` are
those of the calls from the first byte of the element on: data is not empty, and no number of calls
asks for exactly the bytes of a file. -/
def FormDataElement.EndsWithBytes (counts : List Nat) : FormDataElement → Prop
  | data bytes => 0 < bytes.length
  | encodedFile contents => ∀ beginning ∈ counts.inits, beginning.sum ≠ contents.length

/-- The bytes that have to be asked for until the end of the element is noticed. -/
def FormDataElement.askedFor : FormDataElement → Nat
  | data bytes => bytes.length
  | encodedFile contents => contents.length + 1

/-- Every element that has a byte of the body behind it ends with bytes. -/
def EndsWithBytes : List FormDataElement → List Nat → Prop
  | [], _ => True
  | element :: elements, counts =>
    ((∃ behind ∈ elements, 0 < behind.bytes.length) → element.EndsWithBytes counts) ∧
      EndsWithBytes elements (countsAfter element.askedFor counts)

namespace FormDataStream

variable {elements : List FormDataElement} {s : FormDataStream}

theorem exists_bytes_iff : (∃ behind ∈ elements, 0 < behind.bytes.length) ↔
    elements.flatMap FormDataElement.bytes ≠ [] := by
  simp [List.flatMap_eq_nil_iff, List.length_pos_iff]

theorem endsWithBytes_of_nil (h : elements.flatMap FormDataElement.bytes = [])
    (counts : List Nat) : EndsWithBytes elements counts := by
  induction elements generalizing counts with
  | nil => trivial
  | cons element elements ih =>
    rw [List.flatMap_cons, List.append_eq_nil_iff] at h
    exact ⟨fun behind => absurd h.2 (exists_bytes_iff.1 behind), ih h.2 _⟩

@[simp] theorem countsAfter_zero (counts : List Nat) : countsAfter 0 counts = counts := by
  cases counts <;> rfl

theorem countsAfter_cons {bytes : Nat} (h : 0 < bytes) (count : Nat) (counts : List Nat) :
    countsAfter bytes (count :: counts) = countsAfter (bytes - count) counts := by
  cases bytes with
  | zero => cases h
  | succ bytes => rfl

/-- A file of which the next call returns some bytes. -/
theorem inits_cons_iff {count size : Nat} (hsize : 0 < size) (counts : List Nat) :
    (∀ beginning ∈ (count :: counts).inits, beginning.sum ≠ size) ↔
      ∀ beginning ∈ counts.inits, count + beginning.sum ≠ size := by
  simp only [List.inits, List.forall_mem_cons, List.sum_nil, List.forall_mem_map,
    List.sum_cons, ne_eq]
  exact and_iff_right (Nat.ne_of_lt hsize)

/-- One call: if it returns bytes, the condition moves on to what is left. -/
theorem endsWithBytes_iff {count : Nat} (counts : List Nat)
    (hne : (readNext elements count).1 ≠ []) :
    EndsWithBytes elements (count :: counts) ↔
      EndsWithBytes (readNext elements count).2 counts := by
  rcases elements with _ | ⟨bytes | contents, rest⟩
  · exact absurd rfl hne
  · have hpos : 0 < bytes.length := List.length_pos_iff.2 fun h => hne (by simp [readNext, h])
    have hends : (FormDataElement.data bytes).EndsWithBytes (count :: counts) := hpos
    rw [EndsWithBytes, and_iff_right fun _ => hends, FormDataElement.askedFor,
      countsAfter_cons hpos, readNext]
    dsimp only
    split_ifs with hlt
    · have hleft : (FormDataElement.data (bytes.drop count)).EndsWithBytes counts :=
        show 0 < (bytes.drop count).length by simpa using Nat.sub_pos_of_lt hlt
      rw [EndsWithBytes, and_iff_right fun _ => hleft, FormDataElement.askedFor, List.length_drop]
    · rw [Nat.sub_eq_zero_of_le (Nat.le_of_not_lt hlt), countsAfter_zero]
  · have hpos : 0 < contents.length := List.length_pos_iff.2 fun h => hne (by simp [readNext, h])
    rw [EndsWithBytes, FormDataElement.EndsWithBytes, inits_cons_iff hpos,
      FormDataElement.askedFor, countsAfter_cons (Nat.succ_pos _), readNext]
    dsimp only
    split_ifs with hlt
    · rw [Nat.sub_eq_zero_of_le hlt, countsAfter_zero]
      refine and_iff_right fun _ beginning _ => ?_
      omega
    · have hle := Nat.le_of_not_lt hlt
      rw [EndsWithBytes, FormDataElement.EndsWithBytes, FormDataElement.askedFor, List.length_drop,
        Nat.succ_sub hle]
      have hsum (beginning : List Nat) :
          count + beginning.sum ≠ contents.length ↔ beginning.sum ≠ contents.length - count := by
        omega
      simp only [hsum]

/-- A call that returns 0 ends the body rightly if nothing is left. -/
theorem endsWithBytes_iff_of_nil {count : Nat} (hcount : 0 < count) (counts : List Nat)
    (hnil : (readNext elements count).1 = []) :
    EndsWithBytes elements (count :: counts) ↔ elements.flatMap FormDataElement.bytes = [] := by
  refine ⟨fun h => ?_, fun h => endsWithBytes_of_nil h _⟩
  rcases elements with _ | ⟨bytes | contents, rest⟩
  · rfl
  · obtain rfl : bytes = [] := by simpa [readNext, Nat.ne_of_gt hcount] using hnil
    rw [EndsWithBytes, exists_bytes_iff] at h
    by_contra hne
    exact Nat.lt_irrefl 0 (h.1 hne)
  · obtain rfl : contents = [] := by simpa [readNext, Nat.ne_of_gt hcount] using hnil
    rw [EndsWithBytes, exists_bytes_iff] at h
    by_contra hne
    exact h.1 hne [] (by simp) rfl

theorem flatMap_readNext (elements : List FormDataElement) (count : Nat) :
    elements.flatMap FormDataElement.bytes = (readNext elements count).1 ++
      (readNext elements count).2.flatMap FormDataElement.bytes := by
  rcases elements with _ | ⟨bytes | contents, rest⟩
  · rfl
  · simp only [readNext, List.flatMap_cons, FormDataElement.bytes]
    split_ifs with hlt
    · rw [List.flatMap_cons, FormDataElement.bytes, ← List.append_assoc, List.take_append_drop]
    · rw [List.take_of_length_le (Nat.le_of_not_lt hlt)]
  · simp only [readNext, List.flatMap_cons, FormDataElement.bytes]
    split_ifs with hlt
    · rw [List.take_of_length_le (Nat.le_of_lt hlt)]
    · rw [List.flatMap_cons, FormDataElement.bytes, ← List.append_assoc, List.take_append_drop]

/-! ## All calls -/

/-- No call returns 0 while there are more elements and unread bytes remain. -/
def NoEarlyEnd (elements : List FormDataElement) : FormDataStream → List Nat → Prop
  | _, [] => True
  | s, count :: counts =>
    let r := s.read elements 1 count
    if r.sent = 0 then ¬(s.hasMoreElements elements ∧ s.unread elements ≠ [])
    else NoEarlyEnd elements r.stream counts

theorem hasMoreElements_of_unread (h : s.unread elements ≠ []) : s.hasMoreElements elements := by
  rw [hasMoreElements, decide_eq_true_eq, ← Nat.not_le]
  intro hle
  rw [unread, left, List.drop_eq_nil_of_le hle] at h
  exact h rfl

/-- The calls up to the first one that returns 0, by induction on the calls. -/
theorem readUntilZero_spec {counts : List Nat} (h : s.Consistent elements)
    (hcounts : ∀ count ∈ counts, 0 < count ∧ count < 2 ^ 64) {bytes : List UInt8}
    (hread : s.readUntilZero elements counts = some bytes) :
    (bytes = s.unread elements ↔ EndsWithBytes (s.left elements) counts) ∧
      (NoEarlyEnd elements s counts ↔ EndsWithBytes (s.left elements) counts) := by
  induction counts generalizing s bytes with
  | nil => cases hread
  | cons count counts ih =>
    obtain ⟨⟨hpos, hlt⟩, hcounts⟩ := List.forall_mem_cons.1 hcounts
    have hr := reads_read h hpos hlt
    rw [readUntilZero] at hread
    have hunread := flatMap_readNext (s.left elements) count
    rw [← hr.written, ← hr.left] at hunread
    rw [NoEarlyEnd]
    by_cases hzero : (s.read elements 1 count).sent = 0
    · rw [if_pos hzero, Option.some.injEq] at hread
      subst hread
      rw [hr.sent, List.length_eq_zero_iff, hr.written] at hzero
      rw [if_pos (by rw [hr.sent, hr.written, hzero]; rfl), endsWithBytes_iff_of_nil hpos _ hzero,
        and_iff_right_of_imp hasMoreElements_of_unread, not_not]
      exact ⟨eq_comm, Iff.rfl⟩
    · rw [if_neg hzero, Option.map_eq_some_iff] at hread
      obtain ⟨rest, hrest, rfl⟩ := hread
      have hne : (readNext (s.left elements) count).1 ≠ [] := by
        rwa [← hr.written, ne_eq, ← List.length_eq_zero_iff, ← hr.sent]
      obtain ⟨hbytes, hends⟩ := ih hr.consistent hcounts hrest
      rw [if_neg hzero, endsWithBytes_iff _ hne, ← hr.left, unread, hunread,
        List.append_cancel_left_eq]
      exact ⟨hbytes, hends⟩

/-- Sooner or later a call returns 0. -/
theorem exists_readUntilZero {counts : List Nat} (h : s.Consistent elements)
    (hcounts : ∀ count ∈ counts, 0 < count ∧ count < 2 ^ 64)
    (hlength : (s.unread elements).length < counts.length) :
    ∃ bytes, s.readUntilZero elements counts = some bytes := by
  induction counts generalizing s with
  | nil => simp at hlength
  | cons count counts ih =>
    obtain ⟨⟨hpos, hlt⟩, hcounts⟩ := List.forall_mem_cons.1 hcounts
    have hr := reads_read h hpos hlt
    rw [readUntilZero]
    by_cases hzero : (s.read elements 1 count).sent = 0
    · exact ⟨[], by rw [if_pos hzero]⟩
    · have hunread := congrArg List.length (flatMap_readNext (s.left elements) count)
      rw [← hr.written, ← hr.left, List.length_append, ← hr.sent] at hunread
      rw [unread, hunread, List.length_cons] at hlength
      obtain ⟨bytes, hbytes⟩ := ih hr.consistent hcounts (by unfold unread; omega)
      exact ⟨_, by rw [if_neg hzero, hbytes]; rfl⟩

end FormDataStream

/-- The bytes returned up to the first 0 are the whole body exactly if the end of every element that
has bytes behind it is noticed by a call that returns bytes, which depends on the kinds and sizes of
the elements and on the counts only. -/
theorem readUntilZero_eq_body_iff (elements : List FormDataElement) (counts : List Nat)
    (hcounts : ∀ count ∈ counts, 0 < count ∧ count < 2 ^ 64) :
    ((elements.flatMap FormDataElement.bytes).length < counts.length →
      ∃ bytes, start.readUntilZero elements counts = some bytes) ∧
    ∀ bytes, start.readUntilZero elements counts = some bytes →
      (bytes = elements.flatMap FormDataElement.bytes ↔ EndsWithBytes elements counts) ∧
        (NoEarlyEnd elements start counts ↔ EndsWithBytes elements counts) := by
  have hleft : start.left elements = elements := left_of_fresh rfl rfl
  have hstart : start.unread elements = elements.flatMap FormDataElement.bytes := by
    rw [unread, hleft]
  have hconsistent : start.Consistent elements := consistent_of_fresh rfl rfl
  refine ⟨fun hlength => exists_readUntilZero hconsistent hcounts (hstart ▸ hlength),
    fun bytes hread => ?_⟩
  have hspec := readUntilZero_spec hconsistent hcounts hread
  rwa [hstart, hleft] at hspec

/-- The call for four bytes notices the end of the file. -/
theorem readUntilZero_data_file :
    start.readUntilZero [.data [1, 2], .encodedFile [3], .data [4]] [2, 4, 1, 1] =
        some [1, 2, 3, 4] ∧
      EndsWithBytes [.data [1, 2], .encodedFile [3], .data [4]] [2, 4, 1, 1] :=
  ⟨rfl, (((readUntilZero_eq_body_iff [.data [1, 2], .encodedFile [3], .data [4]] [2, 4, 1, 1]
    (by decide)).2 [1, 2, 3, 4] rfl).1).1 rfl⟩

/-- A file that is read up to its last byte makes the next call return 0, although an element
follows; an empty element does so as well. -/
theorem readUntilZero_stops_early :
    start.readUntilZero [.encodedFile [1], .data [2]] [1, 1, 1] = some [1] ∧
      start.readUntilZero [.data [], .data [2]] [1, 1] = some [] := by
  decide

end Odyssey.Network
