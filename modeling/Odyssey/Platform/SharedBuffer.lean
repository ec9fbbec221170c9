import Mathlib.Algebra.GroupWithZero.Nat
import Mathlib.Data.List.Basic

/-!
# Shared buffers

`SharedBuffer.cpp`, in the build that keeps what does not fit a small vector in segments, without
platform data and mapped files. The bytes stand in the vector `m_buffer->data` and then in segments
of a fixed size; how far the last segment is filled is only known from `m_size`.

Memory is a list of cells, empty until they are written. A read or write outside of its block, and
the last segment of no segments, are `none`.
-/
namespace Odyssey.Platform

/-- A byte of memory. -/
abbrev Cell := Option UInt8

/-- `memcpy` from a block of memory. -/
def load (memory : List Cell) (offset length : Nat) : Option (List Cell) :=
  if offset + length ≤ memory.length then some ((memory.drop offset).take length) else none

/-- `memcpy` into a block of memory. -/
def store (memory : List Cell) (offset : Nat) (data : List Cell) : Option (List Cell) :=
  if offset + data.length ≤ memory.length then
    some (memory.take offset ++ data ++ memory.drop (offset + data.length))
  else none

def segmentSize : UInt32 := 0x1000

def segmentPositionMask : UInt32 := 0x0FFF

def segmentIndex (position : UInt32) : UInt32 := position / segmentSize

def offsetInSegment (position : UInt32) : UInt32 := position &&& segmentPositionMask

/-- `allocateSegment`. -/
def allocateSegment : List Cell := List.replicate segmentSize.toNat none

/-- The size of a vector as an `unsigned`. -/
def unsignedSize {α : Type} (v : List α) : UInt32 := v.length.toUInt32

structure SharedBuffer where
  /-- `m_size`. -/
  size : UInt32 := 0
  /-- `m_buffer->data`. -/
  data : List Cell := []
  /-- `m_segments`. -/
  segments : List (List Cell) := []

namespace SharedBuffer

/-- The loop of `append`: copies to the last segment from the offset on, then to new segments. -/
def fillSegments (segments : List (List Cell)) (offset : Nat) (data : List Cell) :
    Option (List (List Cell)) := do
  let bytesToCopy := min data.length (segmentSize.toNat - offset)
  let segment ← segments.getLast?
  let segment ← store segment offset (data.take bytesToCopy)
  let segments := segments.dropLast ++ [segment]
  if data.length ≤ bytesToCopy then some segments
  else if bytesToCopy = 0 then none
  else fillSegments (segments ++ [allocateSegment]) 0 (data.drop bytesToCopy)
termination_by data.length
decreasing_by
  simp only [List.length_drop]
  omega

/-- `SharedBuffer::append` of bytes in memory. -/
def append (b : SharedBuffer) (data : List Cell) : Option SharedBuffer :=
  if data.isEmpty then some b
  else
    let positionInSegment := offsetInSegment (b.size - unsignedSize b.data)
    let size := b.size + unsignedSize data
    if size ≤ segmentSize then some { b with size := size, data := b.data ++ data }
    else do
      let segments :=
        if positionInSegment = 0 then b.segments ++ [allocateSegment] else b.segments
      let segments ← fillSegments segments positionInSegment.toNat data
      some { b with size := size, segments := segments }

/-- `SharedBuffer::getSomeData`: the bytes that are given out at a position. -/
def getSomeData (b : SharedBuffer) (position : UInt32) : Option (List Cell) :=
  let totalSize := b.size
  if position ≥ totalSize then some []
  else
    let consecutiveSize := unsignedSize b.data
    if position < consecutiveSize then
      load b.data position.toNat (consecutiveSize - position).toNat
    else
      let position := position - consecutiveSize
      let segments := unsignedSize b.segments
      let maxSegmentedSize := segments * segmentSize
      let segment := segmentIndex position
      if segment < segments then do
        let bytesLeft := totalSize - consecutiveSize
        let segmentedSize := min maxSegmentedSize bytesLeft
        let positionInSegment := offsetInSegment position
        let memory ← b.segments[segment.toNat]?
        load memory positionInSegment.toNat
          (if segment = segments - 1 then segmentedSize - position
            else segmentSize - positionInSegment).toNat
      else some []

/-- The loop that the header gives for `getSomeData`: what is given out from a position on, and the
position at which nothing is. At most `rounds` times something is. -/
def walk (b : SharedBuffer) : (rounds position : Nat) → Option (List (List Cell) × Nat)
  | 0, _ => none
  | rounds + 1, position => do
    let piece ← b.getSomeData position.toUInt32
    if piece.isEmpty then return ([], position)
    let (pieces, last) ← walk b rounds (position + piece.length)
    return (piece :: pieces, last)

/-- The whole of a buffer, in the pieces that `getSomeData` gives out. No walk has more of them, as
each but the last moves on. -/
def pieces (b : SharedBuffer) : Option (List (List Cell) × Nat) :=
  b.walk (b.size.toNat + 1) 0

/-- `SharedBuffer::append` of another buffer. -/
def appendBuffer (b other : SharedBuffer) : Option SharedBuffer := do
  let (pieces, _) ← other.pieces
  pieces.foldlM append b

def clear (_ : SharedBuffer) : SharedBuffer := {}

/-- `SharedBuffer::copy`. -/
def copy (b : SharedBuffer) : SharedBuffer where
  size := b.size
  data := b.data ++ b.segments.flatten

/-- What `copyBufferAndClear` copies from the segments. -/
def copySegments : (segments : List (List Cell)) → (bytesToCopy : Nat) → Option (List Cell)
  | [], _ => some []
  | segment :: segments, bytesToCopy => do
    let effectiveBytesToCopy := min bytesToCopy segmentSize.toNat
    let copied ← load segment 0 effectiveBytesToCopy
    let rest ← copySegments segments (bytesToCopy - effectiveBytesToCopy)
    some (copied ++ rest)

/-- `SharedBuffer::buffer`, which `SharedBuffer::data` points to. -/
def buffer (b : SharedBuffer) : Option SharedBuffer :=
  let bufferSize := unsignedSize b.data
  if b.size > bufferSize then do
    let resized := b.data ++ List.replicate (b.size - bufferSize).toNat none
    let copied ← copySegments b.segments (b.size - bufferSize).toNat
    let data ← store resized bufferSize.toNat copied
    some { b with data := data, segments := [] }
  else some b

end SharedBuffer

/-! ## Buffers in use -/

/-- What is done with the buffers, which are numbered as they are made. -/
inductive BufferOp where
  | create
  | append (i : Nat) (bytes : List UInt8)
  | appendBuffer (i j : Nat)
  | copy (i : Nat)
  | data (i : Nat)
  | getSomeData (i : Nat) (position : UInt32)
  | clear (i : Nat)

namespace SharedBuffer

def step (buffers : List SharedBuffer) : BufferOp → Option (List SharedBuffer)
  | .create => some (buffers ++ [{}])
  | .append i bytes => do
    let b ← buffers[i]?
    let b ← b.append (bytes.map some)
    some (buffers.set i b)
  | .appendBuffer i j => do
    let b ← buffers[i]?
    let other ← buffers[j]?
    let b ← b.appendBuffer other
    some (buffers.set i b)
  | .copy i => do
    let b ← buffers[i]?
    some (buffers ++ [b.copy])
  | .data i => do
    let b ← buffers[i]?
    let b ← b.buffer
    some (buffers.set i b)
  | .getSomeData i position => do
    let b ← buffers[i]?
    let _ ← b.getSomeData position
    some buffers
  | .clear i => do
    let b ← buffers[i]?
    some (buffers.set i b.clear)

end SharedBuffer

end Odyssey.Platform
