import Mathlib.Data.List.Basic

/-!
# Multipart responses

`MultipartHandle` cuts a multipart body, which arrives in chunks, into its parts. For each part the
client gets one response with the headers of the part and then the data of the part, in pieces.
-/
namespace Odyssey.Network

/-! ## Headers -/

/-- What `parseHTTPHeader` has found: the number of bytes and the header. -/
structure ParsedHeader where
  consumed : Nat
  name : List UInt8
  value : List UInt8
deriving DecidableEq, Repr

def isCR (c : UInt8) : Bool := c = 13

def isLF (c : UInt8) : Bool := c = 10

/-- The part of `parseHTTPHeader` after the colon. `isUTF8` is the decoder behind `fromUTF8`; for a
vector without elements this returns a null string too. -/
def parseValue (isUTF8 : List UInt8 → Bool) (name afterColon : List UInt8) : Option ParsedHeader :=
  let text := afterColon.dropWhile (· = 32)
  let value := text.takeWhile fun c => !isCR c && !isLF c
  match text.drop value.length with
  | _ :: _ :: _ =>
    if name ≠ [] ∧ isUTF8 name = true ∧ value ≠ [] ∧ isUTF8 value = true then
      some ⟨name.length + 1 + (afterColon.length - text.length) + value.length + 1, name, value⟩
    else none
  | _ => none

/-- `parseHTTPHeader`, not strict; `none` if it returns 0. -/
def parseHTTPHeader (isUTF8 : List UInt8 → Bool) (data : List UInt8) : Option ParsedHeader :=
  let name := data.takeWhile fun c => !isCR c && !isLF c && !decide (c = 58)
  match data.drop name.length with
  | [] => none
  | c :: rest =>
    if isCR c then
      match name, rest with
      | [], lf :: _ => if isLF lf then some ⟨2, [], []⟩ else none
      | _, _ => none
    else if isLF c then none
    else parseValue isUTF8 name rest

/-- The loop of `parseHeadersIfPossible`: the headers and `totalConsumedLength`. Each turn skips one
byte more than the header. -/
def parseHeaderLines (isUTF8 : List UInt8 → Bool) :
    Nat → List UInt8 → List (List UInt8 × List UInt8) × Nat
  | 0, _ => ([], 0)
  | fuel + 1, data =>
    match parseHTTPHeader isUTF8 data with
    | none => ([], 0)
    | some header =>
      if header.name = [] then ([], header.consumed)
      else
        let r := parseHeaderLines isUTF8 fuel (data.drop (header.consumed + 1))
        ((header.name, header.value) :: r.1, header.consumed + r.2)

/-- `strnstr`, which does not look behind a null character. -/
def strnstr (target buffer : List UInt8) : Bool :=
  (buffer.takeWhile (· ≠ 0)).tails.any target.isPrefixOf

def hasHeaderEnd (buffer : List UInt8) : Bool :=
  strnstr [13, 10, 13, 10] buffer || strnstr [10, 10] buffer

/-! ## Boundaries -/

/-- `matchForBoundary` at the beginning of `data`: whether it matches and `matchedLength`. -/
def matchForBoundary : List UInt16 → List UInt8 → Bool × Nat
  | [], _ => (true, 0)
  | _ :: _, [] => (false, 0)
  | b :: bs, c :: cs =>
    if c.toUInt16 = b then
      let r := matchForBoundary bs cs
      (r.1, r.2 + 1)
    else (false, 0)

/-- The loop of `checkForBoundary` over `count` positions from `i` on. -/
def scanForBoundary (boundary : List UInt16) :
    Nat → Nat → List UInt8 → Nat → Option Nat × Nat
  | 0, _, _, lastPartialMatchPosition => (none, lastPartialMatchPosition)
  | count + 1, i, data, lastPartialMatchPosition =>
    let r := matchForBoundary boundary data
    if r.1 then (some i, lastPartialMatchPosition)
    else scanForBoundary boundary count (i + 1) (data.drop 1)
      (if r.2 ≠ 0 then i else lastPartialMatchPosition)

/-- `boundaryStartPosition`, if there is one, and `lastPartialMatchPosition`. -/
def checkForBoundary (boundary : List UInt16) (buffer : List UInt8) : Option Nat × Nat :=
  if buffer.length < boundary.length then (none, buffer.length)
  else scanForBoundary boundary (buffer.length - boundary.length) 0 buffer buffer.length

/-! ## The handle -/

inductive MultipartHandleState where
  | checkBoundary
  | inBoundary
  | inHeader
  | inContent
  | endBoundary
  | ended
deriving DecidableEq, Repr

structure MultipartHandle where
  buffer : List UInt8
  headers : List (List UInt8 × List UInt8)
  state : MultipartHandleState
deriving DecidableEq, Repr

/-- What the client sees: a response, or one more byte of data. -/
inductive ClientEvent where
  | response (headers : List (List UInt8 × List UInt8))
  | byte (b : UInt8)
deriving DecidableEq, Repr

def didReceiveData (data : List UInt8) : List ClientEvent := data.map .byte

/-- How a case of `processContent` ends: it returns false, or the work goes on in the next state, by
falling through to the next case or by returning true. -/
inductive CaseResult where
  | wait (events : List ClientEvent) (handle : MultipartHandle)
  | goOn (events : List ClientEvent) (handle : MultipartHandle)
deriving DecidableEq, Repr

namespace MultipartHandle

def start : MultipartHandle := ⟨[], [], .checkBoundary⟩

section

variable (isUTF8 : List UInt8 → Bool) (boundary : List UInt16)

def checkBoundaryCase (h : MultipartHandle) : CaseResult :=
  if h.buffer.length < boundary.length then .wait [] h
  else match checkForBoundary boundary h.buffer with
    | (none, lastPartialMatch) => .wait [] { h with buffer := h.buffer.drop lastPartialMatch }
    | (some boundaryStart, _) => .goOn [] { h with
        buffer := h.buffer.drop (boundaryStart + boundary.length)
        state := .inBoundary }

def inBoundaryCase (h : MultipartHandle) : CaseResult :=
  match h.buffer with
  | c :: d :: rest =>
    if c = 13 ∧ d = 10 then .goOn [] { buffer := rest, headers := [], state := .inHeader }
    else if c ≠ 10 then .wait [] { h with state := .ended }
    else .goOn [] { buffer := d :: rest, headers := [], state := .inHeader }
  | _ => .wait [] h

def inHeaderCase (h : MultipartHandle) : CaseResult :=
  if hasHeaderEnd h.buffer then
    let r := parseHeaderLines isUTF8 h.buffer.length h.buffer
    .goOn [.response (h.headers ++ r.1)]
      ⟨h.buffer.drop (r.2 + 1), h.headers ++ r.1, .inContent⟩
  else .wait [] h

def inContentCase (h : MultipartHandle) : CaseResult :=
  if h.buffer = [] then .wait [] h
  else match checkForBoundary boundary h.buffer with
    | (none, lastPartialMatch) => .wait (didReceiveData (h.buffer.take lastPartialMatch))
        { h with buffer := h.buffer.drop lastPartialMatch }
    | (some boundaryStart, _) => .goOn (didReceiveData (h.buffer.take boundaryStart)) { h with
        buffer := h.buffer.drop (boundaryStart + boundary.length)
        state := .endBoundary }

def endBoundaryCase (h : MultipartHandle) : CaseResult :=
  match h.buffer with
  | c :: d :: _ =>
    if c = 45 ∧ d = 45 then .wait [] { h with state := .ended }
    else .goOn [] { h with state := .inBoundary }
  | _ => .wait [] h

def processCase (h : MultipartHandle) : CaseResult :=
  match h.state with
  | .checkBoundary => h.checkBoundaryCase boundary
  | .inBoundary => h.inBoundaryCase
  | .inHeader => h.inHeaderCase isUTF8
  | .inContent => h.inContentCase boundary
  | .endBoundary => h.endBoundaryCase
  | .ended => .wait [] h

/-- The loop around `processContent`, for at most `fuel` cases. -/
def process : Nat → MultipartHandle → List ClientEvent × MultipartHandle
  | 0, h => ([], h)
  | fuel + 1, h =>
    match h.processCase isUTF8 boundary with
    | .wait events h' => (events, h')
    | .goOn events h' =>
      let r := process fuel h'
      (events ++ r.1, r.2)

/-- Enough for the loop: each case that goes on consumes a byte or leaves `endBoundary`. -/
def steps (h : MultipartHandle) : Nat := 2 * h.buffer.length + 2

def contentEnded (h : MultipartHandle) : List ClientEvent :=
  let r := h.process isUTF8 boundary h.steps
  if r.2.state = .ended then r.1 else r.1 ++ didReceiveData r.2.buffer

end

end MultipartHandle

end Odyssey.Network
