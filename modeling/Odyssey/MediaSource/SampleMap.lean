import Mathlib.Data.Prod.Lex
import Mathlib.Order.WithBot
import Odyssey.Lib.SortedList

/-!
# Maps of samples

`SampleMap` holds the samples of a track in presentation order and in decode order, as two ordered
maps whose iterators are positions. Media times are an arbitrary linear order; the arithmetic of
`MediaTime` plays no part.
-/
namespace Odyssey.MediaSource

open Lib

variable {Time : Type} [LinearOrder Time]

structure MediaSample (Time : Type) where
  presentationTime : Time
  decodeTime : Time
  sizeInBytes : Nat
  isSync : Bool
  isNonDisplaying : Bool
deriving DecidableEq, Repr

/-- `DecodeOrderSampleMap::KeyType`, ordered as a pair. -/
def MediaSample.decodeKey (sample : MediaSample Time) : Time ×ₗ Time :=
  toLex (sample.decodeTime, sample.presentationTime)

/-- `SampleIsRandomAccess`: the flags are `IsSync` and nothing else. -/
def sampleIsRandomAccess (sample : MediaSample Time) : Bool :=
  sample.isSync && !sample.isNonDisplaying

structure SampleMap (Time : Type) [LinearOrder Time] where
  presentationOrder : List (MediaSample Time)
  decodeOrder : List (MediaSample Time)
  totalSize : Nat
  presentation_ascending : Ascending MediaSample.presentationTime presentationOrder
  decode_ascending : Ascending MediaSample.decodeKey decodeOrder

namespace SampleMap

def removeSample (sample : MediaSample Time) (m : SampleMap Time) : SampleMap Time where
  presentationOrder :=
    m.presentationOrder.filter fun s => s.presentationTime ≠ sample.presentationTime
  decodeOrder := m.decodeOrder.filter fun s => s.decodeKey ≠ sample.decodeKey
  totalSize := m.totalSize - sample.sizeInBytes
  presentation_ascending := m.presentation_ascending.filter _
  decode_ascending := m.decode_ascending.filter _

def findSampleWithPresentationTime (time : Time) (m : SampleMap Time) : Nat :=
  let first := lowerBound MediaSample.presentationTime time m.presentationOrder
  match m.presentationOrder[first]? with
  | some sample =>
    if sample.presentationTime = time then first else m.presentationOrder.length
  | none => m.presentationOrder.length

def findSampleOnOrAfterPresentationTime (time : Time) (m : SampleMap Time) : Nat :=
  lowerBound MediaSample.presentationTime time m.presentationOrder

def findSampleWithDecodeKey (key : Time ×ₗ Time) (m : SampleMap Time) : Nat :=
  let first := lowerBound MediaSample.decodeKey key m.decodeOrder
  match m.decodeOrder[first]? with
  | some sample => if sample.decodeKey = key then first else m.decodeOrder.length
  | none => m.decodeOrder.length

/-- The upper bound is the time plus the threshold, which is infinite by default. -/
def findSyncSampleAfterPresentationTime (time : Time) (upperBound : WithTop Time)
    (m : SampleMap Time) : Nat :=
  match m.presentationOrder[m.findSampleOnOrAfterPresentationTime time]? with
  | none => m.decodeOrder.length
  | some sample =>
    let currentSampleDTS := m.findSampleWithDecodeKey sample.decodeKey
    let foundSample := findFrom sampleIsRandomAccess currentSampleDTS m.decodeOrder
    match m.decodeOrder[foundSample]? with
    | none => m.decodeOrder.length
    | some found =>
      if upperBound < (found.presentationTime : WithTop Time) then m.decodeOrder.length
      else foundSample

/-- Both maps hold the same samples. -/
def Consistent (m : SampleMap Time) : Prop :=
  ∀ sample, sample ∈ m.presentationOrder ↔ sample ∈ m.decodeOrder

end SampleMap

/-- The samples of a track and those of them that wait to be enqueued, by decode key. -/
structure TrackBuffer (Time : Type) [LinearOrder Time] where
  samples : SampleMap Time
  decodeQueue : List (MediaSample Time)

namespace TrackBuffer

/-- `removeSamplesFromTrackBuffer`, without the time ranges of the removed samples. -/
def removeSamplesFromTrackBuffer (samples : List (MediaSample Time))
    (trackBuffer : TrackBuffer Time) :
    TrackBuffer Time :=
  samples.foldl (fun trackBuffer sample =>
    { samples := trackBuffer.samples.removeSample sample
      decodeQueue := trackBuffer.decodeQueue.filter fun s => s.decodeKey ≠ sample.decodeKey })
    trackBuffer

/-- One turn of the loop of `removeCodedFrames`. It is `none` when an iterator would be moved past
the end of its map because a range begins after it ends. -/
def removeCodedFrames (start stop : Time) (trackBuffer : TrackBuffer Time) :
    Option (TrackBuffer Time) :=
  let samples := trackBuffer.samples
  let removeDecodeEnd := samples.findSyncSampleAfterPresentationTime stop ⊤
  let removePresentationEnd :=
    match samples.decodeOrder[removeDecodeEnd]? with
    | none => samples.presentationOrder.length
    | some sample => samples.findSampleWithPresentationTime sample.presentationTime
  let removePresentationStart := samples.findSampleOnOrAfterPresentationTime start
  if removePresentationStart = removePresentationEnd then some trackBuffer
  else if removePresentationEnd < removePresentationStart then none
  else
    match minElement MediaSample.decodeTime
        (range removePresentationStart removePresentationEnd samples.presentationOrder) with
    | none => none
    | some minDecodeTime =>
      let removeDecodeStart := samples.findSampleWithDecodeKey minDecodeTime.decodeKey
      if removeDecodeEnd < removeDecodeStart then none
      else
        let erasedSamples := range removeDecodeStart removeDecodeEnd samples.decodeOrder
        some (trackBuffer.removeSamplesFromTrackBuffer erasedSamples)

end TrackBuffer

/-- The loop of `SourceBuffer::removeCodedFrames` over the tracks. -/
def removeCodedFrames (start stop : Time) (trackBufferMap : List (TrackBuffer Time)) :
    Option (List (TrackBuffer Time)) :=
  trackBufferMap.mapM (TrackBuffer.removeCodedFrames start stop)

end Odyssey.MediaSource
