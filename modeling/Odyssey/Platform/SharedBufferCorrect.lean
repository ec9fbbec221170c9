import Odyssey.Lib.Runs
import Odyssey.Platform.SharedBuffer
import Mathlib.Data.List.Forall2

/-!
# A shared buffer holds the bytes appended to it

`Holds b bytes` relates a buffer to its content: the content is a beginning of the vector and the
segments in a row, and less than a segment is left behind it. Every operation keeps the relation but
two: a copy takes the last segment as a whole, even if it is not full, and the sizes of the segments
of a buffer of nearly four gigabytes do not add up in an `unsigned`.
-/
namespace Odyssey.Platform.SharedBuffer

open Lib
open List (Forall₂)

/-! ## Sizes -/

@[simp] theorem toNat_segmentSize : segmentSize.toNat = 4096 := rfl

@[simp] theorem length_allocateSegment : allocateSegment.length = 4096 := by
  rw [allocateSegment, List.length_replicate, toNat_segmentSize]

theorem toNat_unsignedSize {α : Type} {v : List α} (h : v.length < 2 ^ 32) :
    (unsignedSize v).toNat = v.length := by
  simp only [unsignedSize, Nat.toUInt32, UInt32.toNat_ofNat']
  exact Nat.mod_eq_of_lt h

theorem toNat_offsetInSegment (position : UInt32) :
    (offsetInSegment position).toNat = position.toNat % 4096 := by
  rw [offsetInSegment, UInt32.toNat_and]
  exact Nat.and_two_pow_sub_one_eq_mod _ 12

theorem toNat_segmentIndex (position : UInt32) :
    (segmentIndex position).toNat = position.toNat / 4096 := by
  rw [segmentIndex, UInt32.toNat_div]
  rfl

/-! ## Rows of segments -/

/-- All segments have their size. -/
def Whole (segments : List (List Cell)) : Prop :=
  ∀ segment ∈ segments, segment.length = 4096

variable {segments : List (List Cell)}

theorem Whole.append (whole : Whole segments) {segment : List Cell}
    (hsegment : segment.length = 4096) : Whole (segments ++ [segment]) := by
  intro s hs
  rcases List.mem_append.mp hs with hs | hs
  · exact whole s hs
  · exact List.mem_singleton.mp hs ▸ hsegment

theorem Whole.length_flatten (whole : Whole segments) :
    segments.flatten.length = 4096 * segments.length := by
  induction segments with
  | nil => rfl
  | cons segment segments ih =>
    rw [Whole, List.forall_mem_cons] at whole
    rw [List.flatten_cons, List.length_append, whole.1, ih whole.2, List.length_cons]
    omega

/-- The row from a segment on. -/
theorem Whole.drop_flatten (whole : Whole segments) {i : Nat} {segment : List Cell}
    (hi : segments[i]? = some segment) :
    segments.flatten.drop (4096 * i) = segment ++ (segments.drop (i + 1)).flatten := by
  induction segments generalizing i with
  | nil => cases hi
  | cons first segments ih =>
    rw [Whole, List.forall_mem_cons] at whole
    cases i with
    | zero =>
      obtain rfl : first = segment := Option.some.inj hi
      rfl
    | succ i =>
      have hnext : 4096 * (i + 1) = first.length + 4096 * i := by
        rw [whole.1]
        omega
      rw [List.flatten_cons, hnext, List.drop_length_add_append]
      exact ih whole.2 hi

theorem copySegments_eq (whole : Whole segments) (n : Nat) :
    copySegments segments n = some (segments.flatten.take n) := by
  induction segments generalizing n with
  | nil => simp [copySegments]
  | cons segment segments ih =>
    rw [Whole, List.forall_mem_cons] at whole
    have hload : load segment 0 (min n 4096) = some (segment.take n) := by
      rw [load, if_pos (by rw [whole.1]; omega), List.drop_zero, ← whole.1,
        ← List.take_eq_take_min]
    have hrest : n - min n 4096 = n - 4096 := by omega
    rw [copySegments, toNat_segmentSize, hload, ih whole.2, hrest, List.flatten_cons,
      List.take_append, whole.1]
    rfl

/-- The loop of `append` writes the data behind what is written, and leaves less than a segment. -/
theorem fillSegments_spec (written unused data : List Cell) (segments : List (List Cell))
    (offset : Nat) (whole : Whole segments) (hflatten : segments.flatten = written ++ unused)
    (hunused : unused.length + offset = 4096) (hoffset : offset < 4096) (hdata : data ≠ []) :
    ∃ segments' unused', fillSegments segments offset data = some segments' ∧ Whole segments' ∧
      segments'.flatten = written ++ data ++ unused' ∧ unused'.length < 4096 := by
  obtain ⟨n, hn⟩ : ∃ n, n = data.length := ⟨_, rfl⟩
  induction n using Nat.strongRecOn generalizing written unused data segments offset with
  | ind n ih =>
    -- The last segment is written up to the offset.
    have hne : segments ≠ [] := by
      rintro rfl
      have := congrArg List.length hflatten
      simp at this
      omega
    obtain ⟨front, last, rfl⟩ : ∃ front last, segments = front ++ [last] :=
      ⟨_, _, (List.dropLast_append_getLast hne).symm⟩
    have hlast : last.length = 4096 := whole last (by simp)
    have hfront : Whole front := fun segment mem => whole segment (by simp [mem])
    obtain ⟨hwritten, -⟩ : front.flatten ++ last.take offset = written ∧
        last.drop offset = unused := by
      refine List.append_inj' ?_ ?_
      · rw [List.append_assoc, List.take_append_drop, ← hflatten]
        simp
      · rw [List.length_drop]
        omega
    have hlength : 0 < data.length := List.length_pos_iff.mpr hdata
    obtain ⟨count, hcount⟩ : ∃ count, count = min data.length (4096 - offset) := ⟨_, rfl⟩
    have htake : (data.take count).length = count := by
      rw [List.length_take]
      omega
    have hstore : store last offset (data.take count) =
        some (last.take offset ++ data.take count ++ last.drop (offset + count)) := by
      rw [store, htake, if_pos (by omega)]
    have hsegment : (last.take offset ++ data.take count ++ last.drop (offset + count)).length =
        4096 := by
      simp only [List.length_append, List.length_drop, htake, List.length_take]
      omega
    rw [fillSegments]
    simp only [toNat_segmentSize, ← hcount, List.getLast?_concat, List.dropLast_concat, hstore,
      Option.bind_eq_bind, Option.bind_some]
    generalize hnew : last.take offset ++ data.take count ++ last.drop (offset + count) = segment
      at hsegment ⊢
    have hwhole := hfront.append hsegment
    by_cases hfits : data.length ≤ count
    · rw [if_pos hfits]
      refine ⟨_, last.drop (offset + count), rfl, hwhole, ?_, ?_⟩
      · rw [← hwritten, List.flatten_append, List.flatten_singleton, ← hnew,
          List.take_of_length_le hfits]
        simp
      · rw [List.length_drop]
        omega
    · rw [if_neg hfits, if_neg (by omega)]
      have hdrop : last.drop (offset + count) = [] := List.drop_eq_nil_of_le (by omega)
      obtain ⟨segments', unused', hfill, hwhole', hflatten', hunused'⟩ :=
        ih (data.drop count).length (by rw [List.length_drop]; omega) (written ++ data.take count)
          allocateSegment (data.drop count) (front ++ [segment] ++ [allocateSegment]) 0
          (hwhole.append length_allocateSegment)
          (by
            rw [← hwritten, List.flatten_append, List.flatten_append, List.flatten_singleton,
              List.flatten_singleton, ← hnew, hdrop]
            simp)
          length_allocateSegment (by omega)
          (fun h => by have := List.drop_eq_nil_iff.mp h; omega) rfl
      refine ⟨segments', unused', hfill, hwhole', ?_, hunused'⟩
      rw [hflatten', List.append_assoc written, List.take_append_drop]

/-! ## Content -/

/-- The cells of a buffer in a row. -/
def cells (b : SharedBuffer) : List Cell := b.data ++ b.segments.flatten

/-- The buffer holds the bytes. -/
structure Holds (b : SharedBuffer) (bytes : List UInt8) : Prop where
  size : b.size.toNat = bytes.length
  content : bytes.map some <+: b.cells
  whole : Whole b.segments
  data_le : b.data.length ≤ bytes.length
  unused_lt : b.cells.length < bytes.length + 4096
  small : bytes.length ≤ 4096 → b.segments = []
  few : 4096 * b.segments.length < 2 ^ 32

variable {b : SharedBuffer} {bytes : List UInt8}

theorem Holds.length_lt (h : b.Holds bytes) : bytes.length < 2 ^ 32 :=
  h.size ▸ b.size.toNat_lt

theorem Holds.length_cells (h : b.Holds bytes) :
    b.cells.length = b.data.length + 4096 * b.segments.length := by
  rw [cells, List.length_append, h.whole.length_flatten]

theorem Holds.toNat_data (h : b.Holds bytes) : (unsignedSize b.data).toNat = b.data.length :=
  toNat_unsignedSize (Nat.lt_of_le_of_lt h.data_le h.length_lt)

/-- The content stands in the vector and in the segments, with less than a segment behind it. -/
theorem Holds.split (h : b.Holds bytes) :
    ∃ written unused, bytes.map some = b.data ++ written ∧ b.segments.flatten = written ++ unused ∧
      b.data.length + written.length = bytes.length ∧ unused.length < 4096 ∧
      written.length + unused.length = 4096 * b.segments.length := by
  obtain ⟨unused, hunused⟩ := h.content
  have hdata : b.data <+: bytes.map some := by
    refine List.prefix_of_prefix_length_le ⟨_, rfl⟩ h.content ?_
    simpa using h.data_le
  obtain ⟨written, hwritten⟩ := hdata
  have hflatten : b.segments.flatten = written ++ unused := by
    rw [← hwritten, List.append_assoc] at hunused
    exact (List.append_cancel_left hunused).symm
  have hlength := congrArg List.length hwritten
  have hrow := congrArg List.length hflatten
  have hcells := h.length_cells
  have hlt := h.unused_lt
  rw [List.length_append, List.length_map] at hlength
  rw [List.length_append, h.whole.length_flatten] at hrow
  exact ⟨written, unused, hwritten.symm, hflatten, hlength, by omega, hrow.symm⟩

theorem holds_empty : Holds {} [] := by
  refine ⟨rfl, List.nil_prefix, ?_, Nat.le_refl _, ?_, fun _ => rfl, ?_⟩
  · intro segment mem
    cases mem
  · decide
  · decide

/-- A buffer with everything in its vector. -/
theorem holds_flat {size : UInt32} (hsize : size.toNat = bytes.length) :
    Holds { size := size, data := bytes.map some } bytes := by
  refine ⟨hsize, ?_, ?_, ?_, ?_, fun _ => rfl, ?_⟩
  · simp [cells]
  · intro segment mem
    cases mem
  · simp
  · simp [cells]
  · simp

theorem Holds.data_eq (h : b.Holds bytes) (hsegments : b.segments = []) :
    b.data = bytes.map some := by
  have hcontent := h.content
  rw [cells, hsegments, List.flatten_nil, List.append_nil] at hcontent
  exact (hcontent.eq_of_length_le (by simpa using h.data_le)).symm

/-! ## Appending -/

/-- The sizes of the segments add up in an `unsigned` after each of some pieces is appended to a
buffer with so many bytes in its vector and altogether. -/
def RoomFor (vector total : Nat) : List Nat → Prop
  | [] => True
  | length :: lengths =>
    if total + length ≤ 4096 then RoomFor (vector + length) (total + length) lengths
    else total + length - vector ≤ 2 ^ 32 - 4096 ∧ RoomFor vector (total + length) lengths

/-- A buffer with data in its segments behind what is written there. -/
theorem holds_segments {size : UInt32} {data written unused : List Cell}
    (hsize : size.toNat = bytes.length) (hbytes : bytes.map some = data ++ written)
    (whole : Whole segments) (hflatten : segments.flatten = written ++ unused)
    (hunused : unused.length < 4096) (hlarge : 4096 < bytes.length)
    (room : bytes.length - data.length ≤ 2 ^ 32 - 4096) :
    Holds { size := size, data := data, segments := segments } bytes := by
  have hlength := congrArg List.length hbytes
  have hrow := congrArg List.length hflatten
  rw [List.length_append, List.length_map] at hlength
  rw [List.length_append, whole.length_flatten] at hrow
  refine ⟨hsize, ⟨unused, ?_⟩, whole, ?_, ?_, ?_, ?_⟩
  · rw [hbytes, cells, hflatten, List.append_assoc]
  · change data.length ≤ _
    omega
  · rw [cells, hflatten, List.length_append, List.length_append]
    change data.length + _ < _
    omega
  · intro hle
    omega
  · change 4096 * segments.length < _
    omega

/-- The offset in the last segment is the number of bytes written there. -/
theorem Holds.toNat_position (h : b.Holds bytes) {written : List Cell}
    (hlength : b.data.length + written.length = bytes.length) :
    (offsetInSegment (b.size - unsignedSize b.data)).toNat = written.length % 4096 := by
  rw [toNat_offsetInSegment, UInt32.toNat_sub_of_le, h.size, h.toNat_data]
  · congr 1
    omega
  · rw [UInt32.le_iff_toNat_le, h.size, h.toNat_data]
    exact h.data_le

/-- The segments of `append` once there is room for a byte in the last one. -/
theorem Holds.openSegment (h : b.Holds bytes) :
    ∃ written unused segments,
      (if offsetInSegment (b.size - unsignedSize b.data) = 0 then b.segments ++ [allocateSegment]
        else b.segments) = segments ∧
      (offsetInSegment (b.size - unsignedSize b.data)).toNat < 4096 ∧
      bytes.map some = b.data ++ written ∧ Whole segments ∧ segments.flatten = written ++ unused ∧
      unused.length + (offsetInSegment (b.size - unsignedSize b.data)).toNat = 4096 := by
  obtain ⟨written, unused, hbytes, hflatten, hlength, hunused, hrow⟩ := h.split
  have hposition := h.toNat_position hlength
  have hlt : (offsetInSegment (b.size - unsignedSize b.data)).toNat < 4096 :=
    hposition ▸ Nat.mod_lt _ (by omega)
  by_cases hzero : offsetInSegment (b.size - unsignedSize b.data) = 0
  · have hfull : written.length % 4096 = 0 := by
      rw [← hposition, hzero]
      rfl
    have hnil : unused = [] := List.length_eq_zero_iff.mp (by omega)
    refine ⟨written, allocateSegment, _, if_pos hzero, hlt, hbytes,
      h.whole.append length_allocateSegment, ?_, ?_⟩
    · simp [hflatten, hnil]
    · rw [length_allocateSegment, hposition, hfull]
  · have hpartial : written.length % 4096 ≠ 0 := by
      rw [← hposition]
      exact fun heq => hzero (UInt32.toNat_inj.mp heq)
    exact ⟨written, unused, _, if_neg hzero, hlt, hbytes, h.whole, hflatten, by omega⟩

theorem Holds.toNat_size_add (h : b.Holds bytes) {more : List UInt8}
    (hlt : bytes.length + more.length < 2 ^ 32) :
    (b.size + unsignedSize (more.map some)).toNat = (bytes ++ more).length := by
  rw [UInt32.toNat_add, toNat_unsignedSize (by rw [List.length_map]; omega), h.size,
    List.length_map, List.length_append]
  omega

theorem Holds.append (h : b.Holds bytes) (more : List UInt8) (lengths : List Nat)
    (hlt : bytes.length + more.length < 2 ^ 32)
    (room : RoomFor b.data.length bytes.length (more.length :: lengths)) :
    ∃ b', b.append (more.map some) = some b' ∧ b'.Holds (bytes ++ more) ∧
      RoomFor b'.data.length (bytes ++ more).length lengths := by
  rw [RoomFor] at room
  by_cases hempty : more = []
  · subst hempty
    refine ⟨b, rfl, by simpa using h, ?_⟩
    split_ifs at room with hsmall
    · simpa using room
    · simpa using room.2
  have hsize := h.toNat_size_add hlt
  have hcond : b.size + unsignedSize (more.map some) ≤ segmentSize ↔
      bytes.length + more.length ≤ 4096 := by
    rw [UInt32.le_iff_toNat_le, hsize, toNat_segmentSize, List.length_append]
  rw [SharedBuffer.append, if_neg (by simpa using hempty)]
  simp only [hcond]
  by_cases hsmall : bytes.length + more.length ≤ 4096
  · rw [if_pos hsmall] at room ⊢
    have hsegments := h.small (by omega)
    have hflat := holds_flat hsize
    rw [List.map_append, ← h.data_eq hsegments] at hflat
    refine ⟨_, rfl, hsegments ▸ hflat, ?_⟩
    simpa using room
  · rw [if_neg hsmall] at room ⊢
    obtain ⟨written, unused, segments, hsegments, hoffset, hbytes, hwhole, hflatten, hunused⟩ :=
      h.openSegment
    obtain ⟨segments', unused', hfill, hwhole', hflatten', hunused'⟩ :=
      fillSegments_spec written unused (more.map some) segments _ hwhole hflatten hunused hoffset
        (by simpa using hempty)
    rw [hsegments, hfill]
    refine ⟨_, rfl, holds_segments hsize ?_ hwhole' hflatten' hunused' ?_ ?_, ?_⟩
    · rw [List.map_append, hbytes, List.append_assoc]
    · rw [List.length_append]
      omega
    · rw [List.length_append]
      exact room.1
    · rw [List.length_append]
      exact room.2

/-! ## Flattening and copying -/

theorem Holds.buffer (h : b.Holds bytes) :
    ∃ b', b.buffer = some b' ∧ b'.Holds bytes ∧ b'.data = bytes.map some := by
  obtain ⟨written, unused, hbytes, hflatten, hlength, -⟩ := h.split
  have hdata := h.toNat_data
  by_cases hmore : b.data.length < bytes.length
  · have hgt : b.size > unsignedSize b.data := by
      rw [gt_iff_lt, UInt32.lt_iff_toNat_lt, h.size, hdata]
      exact hmore
    have hrest : (b.size - unsignedSize b.data).toNat = written.length := by
      rw [UInt32.toNat_sub_of_le _ _ (UInt32.le_of_lt hgt), h.size, hdata]
      omega
    have hstore : store (b.data ++ List.replicate written.length none) b.data.length written =
        some (bytes.map some) := by
      rw [store, if_pos (by simp), List.take_left, ← hbytes, List.drop_eq_nil_of_le (by simp),
        List.append_nil]
    rw [SharedBuffer.buffer]
    simp only [if_pos hgt, hrest, hdata, copySegments_eq h.whole, hflatten, List.take_left,
      Option.bind_eq_bind, Option.bind_some, hstore]
    exact ⟨_, rfl, holds_flat h.size, rfl⟩
  · have hle : ¬ b.size > unsignedSize b.data := by
      rw [gt_iff_lt, UInt32.lt_iff_toNat_lt, h.size, hdata]
      exact hmore
    have hnil : written = [] := List.length_eq_zero_iff.mp (by omega)
    rw [SharedBuffer.buffer]
    simp only [if_neg hle]
    exact ⟨b, rfl, h, by rw [hbytes, hnil, List.append_nil]⟩

/-- The last segment is full. -/
def LastFull (b : SharedBuffer) : Prop :=
  (b.size.toNat - b.data.length) % 4096 = 0

theorem Holds.copy (h : b.Holds bytes) (full : b.LastFull) : b.copy.Holds bytes := by
  obtain ⟨written, unused, hbytes, hflatten, hlength, hunused, hrow⟩ := h.split
  have hnil : unused = [] := by
    rw [LastFull, h.size] at full
    exact List.length_eq_zero_iff.mp (by omega)
  have hdata : b.data ++ b.segments.flatten = bytes.map some := by
    rw [hflatten, hnil, List.append_nil, hbytes]
  rw [SharedBuffer.copy, hdata]
  exact holds_flat h.size

/-! ## Reading -/

theorem min_eq_of_le {x y : UInt32} (hle : y ≤ x) : min x y = y := by
  change (if x ≤ y then x else y) = y
  split_ifs with h
  · exact UInt32.le_antisymm h hle
  · rfl

/-- Reading in a segment is reading in the row of segments. -/
theorem Whole.load (whole : Whole segments) {q n : Nat} {memory : List Cell}
    (hmemory : segments[q / 4096]? = some memory) (hn : q % 4096 + n ≤ 4096) :
    Platform.load memory (q % 4096) n = some ((segments.flatten.drop q).take n) := by
  have hlength : memory.length = 4096 := whole memory (List.mem_of_getElem? hmemory)
  have hdrop : segments.flatten.drop q =
      (memory ++ (segments.drop (q / 4096 + 1)).flatten).drop (q % 4096) := by
    rw [← whole.drop_flatten hmemory, List.drop_drop, Nat.div_add_mod]
  rw [Platform.load, if_pos (by omega), hdrop, List.drop_append_of_le_length (by omega),
    List.take_append_of_le_length (by rw [List.length_drop]; omega)]

theorem Holds.toNat_sub_data (h : b.Holds bytes) {x : UInt32} (hle : b.data.length ≤ x.toNat) :
    (x - unsignedSize b.data).toNat = x.toNat - b.data.length := by
  rw [UInt32.toNat_sub_of_le, h.toNat_data]
  rw [UInt32.le_iff_toNat_le, h.toNat_data]
  exact hle

/-- The number of bytes that are given out at a position in the segments: to the end of the content
in the last segment, and to the end of the segment before it. -/
theorem Holds.toNat_pieceLength (h : b.Holds bytes) {q : UInt32}
    (hq : q.toNat < bytes.length - b.data.length) :
    (if segmentIndex q = unsignedSize b.segments - 1 then
      min (unsignedSize b.segments * segmentSize) (b.size - unsignedSize b.data) - q
      else segmentSize - offsetInSegment q).toNat =
    if q.toNat / 4096 = b.segments.length - 1 then bytes.length - b.data.length - q.toNat
      else 4096 - q.toNat % 4096 := by
  obtain ⟨written, unused, -, -, hlength, -, hrow⟩ := h.split
  have hfew := h.few
  have hcount : (unsignedSize b.segments).toNat = b.segments.length :=
    toNat_unsignedSize (by omega)
  have hleft : (b.size - unsignedSize b.data).toNat = bytes.length - b.data.length := by
    rw [h.toNat_sub_data (h.size ▸ h.data_le), h.size]
  have hmin : min (unsignedSize b.segments * segmentSize) (b.size - unsignedSize b.data) =
      b.size - unsignedSize b.data := by
    refine min_eq_of_le ?_
    rw [UInt32.le_iff_toNat_le, UInt32.toNat_mul, hcount, hleft, toNat_segmentSize]
    omega
  have hlast : segmentIndex q = unsignedSize b.segments - 1 ↔
      q.toNat / 4096 = b.segments.length - 1 := by
    rw [← UInt32.toNat_inj, toNat_segmentIndex, UInt32.toNat_sub_of_le, hcount]
    · rfl
    · rw [UInt32.le_iff_toNat_le, hcount]
      change 1 ≤ _
      omega
  simp only [hlast, hmin]
  split_ifs
  · rw [UInt32.toNat_sub_of_le _ _ (by rw [UInt32.le_iff_toNat_le, hleft]; omega), hleft]
  · have hoffset := toNat_offsetInSegment q
    rw [UInt32.toNat_sub_of_le, hoffset, toNat_segmentSize]
    rw [UInt32.le_iff_toNat_le, hoffset, toNat_segmentSize]
    omega

/-- What is given out at a position before the end is the content from there on. -/
theorem Holds.getSomeData (h : b.Holds bytes) (position : UInt32)
    (hposition : position.toNat < bytes.length) :
    ∃ n, 0 < n ∧ position.toNat + n ≤ bytes.length ∧
      b.getSomeData position = some (((bytes.drop position.toNat).take n).map some) := by
  obtain ⟨written, unused, hbytes, hflatten, hlength, hunused, hrow⟩ := h.split
  have hdata := h.toNat_data
  have hbefore : ¬ position ≥ b.size := by
    rw [ge_iff_le, UInt32.le_iff_toNat_le, h.size]
    omega
  rw [SharedBuffer.getSomeData]
  simp only [if_neg hbefore, UInt32.lt_iff_toNat_lt, hdata, List.map_take, List.map_drop, hbytes]
  by_cases hvector : position.toNat < b.data.length
  · have hn : (unsignedSize b.data - position).toNat = b.data.length - position.toNat := by
      rw [UInt32.toNat_sub_of_le _ _ (by rw [UInt32.le_iff_toNat_le]; omega), hdata]
    refine ⟨b.data.length - position.toNat, by omega, by omega, ?_⟩
    rw [if_pos hvector, hn, load, if_pos (by omega), List.drop_append_of_le_length (by omega),
      List.take_append_of_le_length (by simp)]
  · rw [if_neg hvector]
    have hq := h.toNat_sub_data (Nat.le_of_not_lt hvector)
    generalize position - unsignedSize b.data = q at hq
    have hcount : (unsignedSize b.segments).toNat = b.segments.length :=
      toNat_unsignedSize (by have := h.few; omega)
    have hinside : q.toNat / 4096 < b.segments.length := by omega
    have hpiece := h.toNat_pieceLength (q := q) (by omega)
    obtain ⟨n, hn⟩ : ∃ n, n = if q.toNat / 4096 = b.segments.length - 1 then
        bytes.length - b.data.length - q.toNat else 4096 - q.toNat % 4096 := ⟨_, rfl⟩
    rw [← hn] at hpiece
    have hbounds : 0 < n ∧ q.toNat + n ≤ written.length ∧ q.toNat % 4096 + n ≤ 4096 := by
      rw [hn]
      split_ifs <;> omega
    refine ⟨n, hbounds.1, by omega, ?_⟩
    have hmemory := List.getElem?_eq_getElem hinside
    rw [toNat_segmentIndex, hcount, if_pos hinside, hmemory, toNat_offsetInSegment, hpiece]
    simp only [Option.bind_eq_bind, Option.bind_some]
    have hdrop : position.toNat = b.data.length + q.toNat := by omega
    rw [h.whole.load hmemory hbounds.2.2, hflatten, hdrop, List.drop_length_add_append,
      List.drop_append_of_le_length (by omega),
      List.take_append_of_le_length (by rw [List.length_drop]; omega)]

theorem Holds.getSomeData_end (h : b.Holds bytes) (position : UInt32)
    (hposition : bytes.length ≤ position.toNat) : b.getSomeData position = some [] := by
  rw [SharedBuffer.getSomeData]
  exact if_pos (by rwa [ge_iff_le, UInt32.le_iff_toNat_le, h.size])

theorem Holds.exists_getSomeData (h : b.Holds bytes) (position : UInt32) :
    ∃ piece, b.getSomeData position = some piece := by
  rcases Nat.lt_or_ge position.toNat bytes.length with hlt | hge
  · obtain ⟨n, -, -, hget⟩ := h.getSomeData position hlt
    exact ⟨_, hget⟩
  · exact ⟨_, h.getSomeData_end position hge⟩

theorem Holds.walk (h : b.Holds bytes) (rounds position : Nat) (hle : position ≤ bytes.length)
    (hrounds : bytes.length - position < rounds) :
    ∃ pieces : List (List UInt8), b.walk rounds position =
        some (pieces.map (List.map some), bytes.length) ∧ pieces.flatten = bytes.drop position := by
  induction rounds generalizing position with
  | zero => omega
  | succ rounds ih =>
    have hlt := h.length_lt
    have hposition : position.toUInt32.toNat = position := by
      simp only [Nat.toUInt32, UInt32.toNat_ofNat']
      omega
    by_cases hend : position = bytes.length
    · have hget := h.getSomeData_end position.toUInt32 (by omega)
      refine ⟨[], ?_, by simp [hend]⟩
      simp only [SharedBuffer.walk, hget, Option.bind_eq_bind, Option.bind_some, ← hend]
      rfl
    · obtain ⟨n, hpos, hn, hget⟩ := h.getSomeData position.toUInt32 (by omega)
      rw [hposition] at hn hget
      have hpiece : ((bytes.drop position).take n).length = n := by
        rw [List.length_take, List.length_drop]
        omega
      obtain ⟨pieces, hwalk, hpieces⟩ := ih (position + n) (by omega) (by omega)
      refine ⟨(bytes.drop position).take n :: pieces, ?_, ?_⟩
      · have hne : ¬ (((bytes.drop position).take n).map some).isEmpty := by
          rw [List.isEmpty_iff_length_eq_zero, List.length_map, hpiece]
          omega
        simp only [SharedBuffer.walk, hget, Option.bind_eq_bind, Option.bind_some, if_neg hne,
          List.length_map, hpiece, hwalk]
        rfl
      · rw [List.flatten_cons, hpieces, ← List.drop_drop, List.take_append_drop]

theorem Holds.pieces (h : b.Holds bytes) :
    ∃ pieces : List (List UInt8), b.pieces = some (pieces.map (List.map some), bytes.length) ∧
      pieces.flatten = bytes := by
  obtain ⟨pieces, hwalk, hpieces⟩ := h.walk (b.size.toNat + 1) 0 (by omega) (by rw [h.size]; omega)
  exact ⟨pieces, hwalk, hpieces⟩

/-- Appending piece after piece. -/
theorem Holds.foldlM_append (h : b.Holds bytes) (pieces : List (List UInt8))
    (hlt : bytes.length + pieces.flatten.length < 2 ^ 32)
    (room : RoomFor b.data.length bytes.length (pieces.map List.length)) :
    ∃ b', (pieces.map (List.map some)).foldlM SharedBuffer.append b = some b' ∧
      b'.Holds (bytes ++ pieces.flatten) := by
  induction pieces generalizing b bytes with
  | nil => exact ⟨b, rfl, by simpa using h⟩
  | cons piece pieces ih =>
    rw [List.flatten_cons, List.length_append] at hlt
    obtain ⟨b', happend, h', room'⟩ := h.append piece (pieces.map List.length) (by omega) room
    obtain ⟨b'', hfold, h''⟩ := ih h' (by rw [List.length_append]; omega) room'
    refine ⟨b'', ?_, by simpa using h''⟩
    rw [List.map_cons, List.foldlM_cons, happend]
    exact hfold

/-! ## Runs -/

/-- What the buffers are for: the bytes appended to each of them since it was cleared. -/
def contentsAfter (contents : List (List UInt8)) : BufferOp → List (List UInt8)
  | .create => contents ++ [[]]
  | .append i bytes => contents.set i (contents.getD i [] ++ bytes)
  | .appendBuffer i j => contents.set i (contents.getD i [] ++ contents.getD j [])
  | .copy i => contents ++ [contents.getD i []]
  | .data _ => contents
  | .getSomeData _ _ => contents
  | .clear i => contents.set i []

/-- The buffers exist, a buffer is not appended to itself, and no buffer gets four gigabytes. -/
def InDomain (contents : List (List UInt8)) : BufferOp → Prop
  | .create => True
  | .append i bytes =>
    i < contents.length ∧ (contents.getD i []).length + bytes.length < 2 ^ 32
  | .appendBuffer i j => i < contents.length ∧ j < contents.length ∧ i ≠ j ∧
    (contents.getD i []).length + (contents.getD j []).length < 2 ^ 32
  | .copy i => i < contents.length
  | .data i => i < contents.length
  | .getSomeData i _ => i < contents.length
  | .clear i => i < contents.length

/-- The operations that do not meet a defect: only a buffer whose last segment is full is copied,
and the sizes of the segments add up in an `unsigned` after each piece that is appended. -/
def Safe (buffers : List SharedBuffer) : BufferOp → Prop
  | .append i bytes =>
    ∀ b ∈ buffers[i]?, RoomFor b.data.length b.size.toNat [bytes.length]
  | .appendBuffer i j => ∀ b ∈ buffers[i]?, ∀ other ∈ buffers[j]?, ∀ result ∈ other.pieces,
    RoomFor b.data.length b.size.toNat (result.1.map List.length)
  | .copy i => ∀ b ∈ buffers[i]?, b.LastFull
  | _ => True

/-- A step of the buffers, with what they are for. -/
def trackedStep (s : List SharedBuffer × List (List UInt8)) (op : BufferOp) :
    Option (List SharedBuffer × List (List UInt8)) :=
  (step s.1 op).map (·, contentsAfter s.2 op)

/-- What the buffer shows is these bytes. -/
structure Shows (b : SharedBuffer) (bytes : List UInt8) : Prop where
  size : b.size.toNat = bytes.length
  data : ∃ b', b.buffer = some b' ∧ b'.data = bytes.map some
  walk : ∃ pieces, b.pieces = some (pieces, bytes.length) ∧ pieces.flatten = bytes.map some

theorem Holds.shows (h : b.Holds bytes) : b.Shows bytes := by
  obtain ⟨b', hbuffer, -, hdata⟩ := h.buffer
  obtain ⟨pieces, hpieces, hflatten⟩ := h.pieces
  refine ⟨h.size, ⟨b', hbuffer, hdata⟩, _, hpieces, ?_⟩
  rw [← List.map_flatten, hflatten]

section

variable {buffers : List SharedBuffer} {contents : List (List UInt8)} {i : Nat}

theorem forall₂_getElem? (h : Forall₂ Holds buffers contents) (hi : i < contents.length) :
    ∃ b, buffers[i]? = some b ∧ b.Holds (contents.getD i []) := by
  induction h generalizing i with
  | nil => simp at hi
  | cons hhead htail ih =>
    cases i with
    | zero => exact ⟨_, rfl, hhead⟩
    | succ i => exact ih (by simpa using hi)

theorem forall₂_set (h : Forall₂ Holds buffers contents) (hb : b.Holds bytes) (i : Nat) :
    Forall₂ Holds (buffers.set i b) (contents.set i bytes) := by
  induction h generalizing i with
  | nil => exact .nil
  | cons hhead htail ih =>
    cases i with
    | zero => exact .cons hb htail
    | succ i => exact .cons hhead (ih i)

theorem forall₂_concat (h : Forall₂ Holds buffers contents) (hb : b.Holds bytes) :
    Forall₂ Holds (buffers ++ [b]) (contents ++ [bytes]) :=
  List.rel_append h (.cons hb .nil)

theorem forall₂_set_self (h : Forall₂ Holds buffers contents) (hi : i < contents.length)
    (hb : b.Holds (contents.getD i [])) : Forall₂ Holds (buffers.set i b) contents := by
  have hset := forall₂_set h hb i
  rwa [List.getD_eq_getElem?_getD, List.getElem?_eq_getElem hi, Option.getD_some,
    List.set_getElem_self] at hset

theorem step_holds (h : Forall₂ Holds buffers contents) {op : BufferOp}
    (domain : InDomain contents op) (safe : Safe buffers op) :
    ∃ buffers', step buffers op = some buffers' ∧
      Forall₂ Holds buffers' (contentsAfter contents op) := by
  cases op with
  | create => exact ⟨_, rfl, forall₂_concat h holds_empty⟩
  | append i bytes =>
    obtain ⟨b, hi, hb⟩ := forall₂_getElem? h domain.1
    have room := safe b hi
    rw [hb.size] at room
    obtain ⟨b', happend, hb', -⟩ := hb.append bytes [] domain.2 room
    exact ⟨_, by simp [step, hi, happend], forall₂_set h hb' i⟩
  | appendBuffer i j =>
    obtain ⟨hi, hj, -, hlt⟩ := domain
    obtain ⟨b, hi, hb⟩ := forall₂_getElem? h hi
    obtain ⟨other, hj, hother⟩ := forall₂_getElem? h hj
    obtain ⟨pieces, hpieces, hflatten⟩ := hother.pieces
    have room := safe b hi other hj _ hpieces
    rw [hb.size, List.map_map] at room
    rw [← hflatten] at hlt
    obtain ⟨b', hfold, hb'⟩ := hb.foldlM_append pieces hlt (by simpa [Function.comp_def] using room)
    have happend : b.appendBuffer other = some b' := by
      rw [appendBuffer, hpieces]
      exact hfold
    rw [hflatten] at hb'
    exact ⟨_, by simp [step, hi, hj, happend], forall₂_set h hb' i⟩
  | copy i =>
    obtain ⟨b, hi, hb⟩ := forall₂_getElem? h domain
    exact ⟨_, by simp [step, hi], forall₂_concat h (hb.copy (safe b hi))⟩
  | data i =>
    obtain ⟨b, hi, hb⟩ := forall₂_getElem? h domain
    obtain ⟨b', hbuffer, hb', -⟩ := hb.buffer
    exact ⟨_, by simp [step, hi, hbuffer], forall₂_set_self h domain hb'⟩
  | getSomeData i position =>
    obtain ⟨b, hi, hb⟩ := forall₂_getElem? h domain
    obtain ⟨some, hsome⟩ := hb.exists_getSomeData position
    exact ⟨_, by simp [step, hi, hsome], h⟩
  | clear i =>
    obtain ⟨b, hi, -⟩ := forall₂_getElem? h domain
    exact ⟨_, by simp [step, hi, SharedBuffer.clear], forall₂_set h holds_empty i⟩

end

/-- Before and after each of the operations every buffer shows the bytes appended to it. -/
def HoldsAppended (ops : List BufferOp) : Prop :=
  Runs.Always trackedStep (fun s => Forall₂ Shows s.1 s.2) ([], []) ops

theorem holdsAppended (ops : List BufferOp)
    (domain : Runs.Every trackedStep (fun s => InDomain s.2) ([], []) ops)
    (safe : Runs.Every trackedStep (fun s => Safe s.1) ([], []) ops) : HoldsAppended ops := by
  refine Runs.always_of_every (I := fun s => Forall₂ Holds s.1 s.2)
    (fun h => h.imp fun _ _ hb => hb.shows) (fun h ok => ?_) .nil (domain.and safe)
  obtain ⟨buffers', hstep, h'⟩ := step_holds h ok.1 ok.2
  exact ⟨_, by rw [trackedStep, hstep]; rfl, h'⟩

/-- A small buffer, its copy, and the copy appended to it. -/
def smallOps : List BufferOp :=
  [.create, .append 0 [1, 2], .copy 0, .appendBuffer 0 1, .data 0, .getSomeData 0 3, .clear 1]

theorem holdsAppended_smallOps : HoldsAppended smallOps := by
  refine holdsAppended smallOps ?_ ?_
  · refine .cons trivial rfl (.cons ?_ rfl (.cons ?_ rfl (.cons ?_ rfl (.cons ?_ rfl (.cons ?_ rfl
      (.cons ?_ rfl trivial))))))
    all_goals
      simp only [InDomain]
      decide
  · refine .cons trivial rfl (.cons ?_ rfl (.cons ?_ rfl (.cons ?_ rfl (.cons trivial rfl
      (.cons trivial rfl (.cons trivial rfl trivial))))))
    · rintro b ⟨⟩
      simp [RoomFor]
    · rintro b ⟨⟩
      rfl
    · rintro b ⟨⟩ other ⟨⟩ result ⟨⟩
      change RoomFor 2 2 [2]
      simp [RoomFor]

/-- A copy of a buffer whose last segment is not full shows more than the content. -/
theorem Holds.not_shows_copy (h : b.Holds bytes) (partly : ¬ b.LastFull)
    (hlt : b.cells.length < 2 ^ 32) : ¬ b.copy.Shows bytes := by
  obtain ⟨written, unused, hbytes, hflatten, hlength, hunused, hrow⟩ := h.split
  rintro ⟨-, ⟨b', hbuffer, hdata⟩, -⟩
  have hcells := h.length_cells
  rw [LastFull, h.size] at partly
  have hle : ¬ b.copy.size > unsignedSize b.copy.data := by
    change ¬ b.size > unsignedSize b.cells
    rw [gt_iff_lt, UInt32.lt_iff_toNat_lt, toNat_unsignedSize hlt, h.size]
    omega
  rw [SharedBuffer.buffer] at hbuffer
  simp only [if_neg hle, Option.some.injEq] at hbuffer
  subst hbuffer
  have hcopied : b.cells.length = (bytes.map some).length := congrArg List.length hdata
  rw [List.length_map] at hcopied
  omega

/-- What does not fit a small vector goes to the segments. -/
theorem data_of_append {b' : SharedBuffer} {data : List Cell} (happend : b.append data = some b')
    (hlarge : ¬ b.size + unsignedSize data ≤ segmentSize) : b'.data = b.data := by
  rw [SharedBuffer.append] at happend
  split_ifs at happend
  · cases happend
    rfl
  · simp only [if_neg hlarge, Option.bind_eq_bind, Option.bind_eq_some_iff] at happend
    obtain ⟨segments, -, ⟨⟩⟩ := happend
    rfl

/-- A copy of a buffer of 4097 bytes, which take a segment and one byte of the next: it shows two
segments. -/
theorem not_holdsAppended_partial :
    ¬ ∀ ops, Runs.Every trackedStep (fun s => InDomain s.2) ([], []) ops → HoldsAppended ops := by
  intro hall
  obtain ⟨bytes, hlength⟩ : ∃ bytes : List UInt8, bytes.length = 4097 :=
    ⟨List.replicate 4097 0, List.length_replicate⟩
  obtain ⟨b, happend, h, -⟩ := holds_empty.append bytes [] (by simp [hlength])
    (by simp [RoomFor, hlength])
  have hdata : b.data = [] := data_of_append happend (by
    rw [UInt32.le_iff_toNat_le, holds_empty.toNat_size_add (by simp [hlength])]
    simp [hlength])
  have hcells := h.length_cells
  have hunused := h.unused_lt
  rw [List.nil_append] at h hunused
  have happended : trackedStep ([{}], [[]]) (.append 0 bytes) = some ([b], [bytes]) := by
    simp [trackedStep, step, happend, contentsAfter]
  have always := hall [.create, .append 0 bytes, .copy 0] (.cons trivial rfl (.cons
    ⟨Nat.one_pos, by simp [contentsAfter, hlength]⟩ happended (.cons Nat.one_pos rfl trivial)))
  have hcopy : b.copy.Shows bytes := by
    obtain ⟨-, _, ⟨⟩, -, s, happended', always⟩ := always
    cases happended.symm.trans happended'
    obtain ⟨-, _, ⟨⟩, - | ⟨-, - | ⟨hcopy, -⟩⟩⟩ := always
    exact hcopy
  refine h.not_shows_copy ?_ (by omega) hcopy
  rw [LastFull, h.size, hdata, hlength]
  decide

end Odyssey.Platform.SharedBuffer
