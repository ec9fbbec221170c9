import Odyssey.WebSockets.WebSocketFrameData

/-!
# The receive buffer of a channel

`WebSocketChannel` appends received data to `m_buffer` and takes one frame after the other off its
front. It is modelled after the handshake and while it is not suspended. What it does with a frame
is a parameter, so that the results hold for every check of a frame and for every client.
-/
namespace Odyssey.WebSockets

open WebSocketFrame

/-- The part of the channel behind the buffer. `handle` says whether further data is processed: it
is not after a failure, after a closing handshake or without a client. -/
structure FrameHandler (σ : Type) where
  handle : σ → WebSocketFrame → σ × Bool
  fail : σ → String → σ

/-- `discards` says that no data is processed any more. What is left in the buffer then is skipped
or never looked at again, and counts as nothing. -/
structure Receiver (σ : Type) where
  state : σ
  buffer : List UInt8 := []
  discards : Bool := false

/-- Data received at once; `len <= 0` is the end of the stream. -/
abbrev Piece := { data : List UInt8 // data ≠ [] }

theorem exists_wire {data data' : List UInt8} {frame : WebSocketFrame} {frameEnd : Nat}
    (h : parseFrame data = .frameOK frame frameEnd data') :
    ∃ bytes rest, Wire frame bytes ∧ data = bytes ++ rest ∧ frameEnd = bytes.length := by
  obtain ⟨bytes, rest, wire, rfl⟩ := wire_of_parseFrame h
  obtain ⟨_, ok, -⟩ := parseFrame_of_wire wire rest
  exact ⟨bytes, rest, wire, rfl, (ParseFrameResult.frameOK.inj (h.symm.trans ok)).2.1⟩

theorem length_drop_lt {data data' : List UInt8} {frame : WebSocketFrame} {frameEnd : Nat}
    (h : parseFrame data = .frameOK frame frameEnd data') :
    (data.drop frameEnd).length < data.length := by
  obtain ⟨bytes, rest, ⟨_, _, _, -, -, -, rfl⟩, rfl, rfl⟩ := exists_wire h
  rw [List.drop_left]
  simp only [List.length_append, List.length_cons]
  omega

/-- A complete frame is read in the same way when more data has arrived. -/
theorem parseFrame_append {data data' : List UInt8} {frame : WebSocketFrame} {frameEnd : Nat}
    (h : parseFrame data = .frameOK frame frameEnd data') (more : List UInt8) :
    ∃ data'', parseFrame (data ++ more) = .frameOK frame frameEnd data'' ∧
      (data ++ more).drop frameEnd = data.drop frameEnd ++ more := by
  obtain ⟨bytes, rest, wire, rfl, rfl⟩ := exists_wire h
  obtain ⟨data'', ok, -⟩ := parseFrame_of_wire wire (rest ++ more)
  rw [List.append_assoc, List.drop_left, List.drop_left]
  exact ⟨data'', ok, rfl⟩

theorem parseFrame_error_append {data : List UInt8} {e : String}
    (h : parseFrame data = .frameError e) (more : List UInt8) :
    parseFrame (data ++ more) = .frameError e := by
  unfold parseFrame at h
  split at h
  · dsimp only at h
    split at h
    · cases h
    rename_i long
    rw [List.cons_append, List.cons_append, parseFrame, List.length_append, if_neg (by omega),
      List.take_append_of_le_length (Nat.not_lt.mp long)]
    split at h
    · exact h
    · unfold parsePayload at h
      dsimp only at h
      split at h <;> cases h
  · cases h

namespace Receiver

variable {σ : Type} (c : FrameHandler σ)

/-- The loop of `didReceiveSocketStreamData` with `processFrame`. -/
def processBuffer (r : Receiver σ) : Receiver σ :=
  match _h : parseFrame r.buffer with
  | .frameIncomplete => r
  | .frameError errorString => ⟨c.fail r.state errorString, [], true⟩
  | .frameOK frame frameEnd _ =>
    match c.handle r.state frame with
    | (state, false) => ⟨state, [], true⟩
    | (state, true) => processBuffer { r with state, buffer := r.buffer.drop frameEnd }
termination_by r.buffer.length
decreasing_by exact length_drop_lt _h

def didReceiveSocketStreamData (r : Receiver σ) (data : Piece) : Receiver σ :=
  if r.discards then r else { r with buffer := r.buffer ++ data.1 }.processBuffer c

variable {c} {r : Receiver σ}

/-- The loop without the proof that it ends. -/
theorem processBuffer_eq (r : Receiver σ) :
    r.processBuffer c = match parseFrame r.buffer with
      | .frameIncomplete => r
      | .frameError errorString => ⟨c.fail r.state errorString, [], true⟩
      | .frameOK frame frameEnd _ =>
        match c.handle r.state frame with
        | (state, false) => ⟨state, [], true⟩
        | (state, true) => processBuffer c { r with state, buffer := r.buffer.drop frameEnd } := by
  rw [processBuffer]
  split <;> rename_i h <;> rw [h]

/-- Data that comes after the loop has run is processed as if it had come before. -/
theorem receive_processBuffer (live : r.discards = false) (more : Piece) :
    (r.processBuffer c).didReceiveSocketStreamData c more =
      { r with buffer := r.buffer ++ more.1 }.processBuffer c := by
  fun_induction processBuffer c r with
  | case1 r incomplete => rw [didReceiveSocketStreamData, live, if_neg Bool.false_ne_true]
  | case2 r e error =>
    rw [processBuffer_eq, parseFrame_error_append error more.1]
    rfl
  | case3 r frame frameEnd data ok state handled =>
    obtain ⟨_, ok', -⟩ := parseFrame_append ok more.1
    rw [processBuffer_eq, ok']
    simp only [handled]
    rfl
  | case4 r frame frameEnd data ok state handled ih =>
    obtain ⟨_, ok', split⟩ := parseFrame_append ok more.1
    rw [ih live, processBuffer_eq { r with buffer := r.buffer ++ more.1 }, ok']
    simp only [handled, split]

theorem foldl_receive (c : FrameHandler σ) (state : σ) (pieces : List Piece) :
    pieces.foldl (didReceiveSocketStreamData c) { state } =
      ({ state, buffer := pieces.flatMap Subtype.val } : Receiver σ).processBuffer c := by
  induction pieces using List.reverseRecOn with
  | nil => exact (processBuffer_eq { state, buffer := [] }).symm
  | append_singleton pieces piece ih =>
    rw [List.foldl_concat, ih, receive_processBuffer rfl, List.flatMap_append,
      List.flatMap_singleton]

/-- However a stream is cut into pieces, the channel is given the same frames and ends in the same
state, also if the stream is malformed or goes on after a failure or a closing handshake. -/
theorem receive_eq_of_flatMap_eq (c : FrameHandler σ) (state : σ) (pieces pieces' : List Piece)
    (same : pieces.flatMap Subtype.val = pieces'.flatMap Subtype.val) :
    pieces.foldl (didReceiveSocketStreamData c) { state } =
      pieces'.foldl (didReceiveSocketStreamData c) { state } := by
  rw [foldl_receive, foldl_receive, same]

end Receiver

/-- A handler that keeps the frames up to the first masked one, with which `processFrame` fails. -/
def unmaskedFrames : FrameHandler (List WebSocketFrame) where
  handle frames frame := if frame.masked then (frames, false) else (frames ++ [frame], true)
  fail frames _ := frames

theorem receive_two_pieces :
    [⟨[0x81, 0x02], by decide⟩, ⟨[0x68, 0x69], by decide⟩].foldl
        (Receiver.didReceiveSocketStreamData unmaskedFrames) { state := [] } =
      [⟨[0x81, 0x02, 0x68, 0x69], by decide⟩].foldl
        (Receiver.didReceiveSocketStreamData unmaskedFrames) { state := [] } :=
  Receiver.receive_eq_of_flatMap_eq unmaskedFrames [] _ _ rfl

/-- What a sender writes: frames with their masking keys. -/
def sentBytes (messages : List (List UInt8 × WebSocketFrame)) : List UInt8 :=
  messages.flatMap fun m => makeFrameData m.1 m.2

/-- The frames are handled one after the other, up to the first one after which no further data is
processed. -/
def FrameHandler.handleAll {σ : Type} (c : FrameHandler σ) : σ → List WebSocketFrame → Receiver σ
  | state, [] => { state }
  | state, frame :: frames =>
    match c.handle state frame with
    | (state, false) => ⟨state, [], true⟩
    | (state, true) => c.handleAll state frames

theorem Receiver.processBuffer_sentBytes {σ : Type} (c : FrameHandler σ) (state : σ)
    (messages : List (List UInt8 × WebSocketFrame))
    (coded : ∀ m ∈ messages, (∃ n < 16, m.2.opCode = .ofValue n) ∧
      m.1.length = maskingKeyWidthInBytes ∧ m.2.payload.length ≤ maxPayloadLength ∧
      m.2.withoutReserved = m.2) :
    processBuffer c { state, buffer := sentBytes messages } =
      c.handleAll state (messages.map Prod.snd) := by
  induction messages generalizing state with
  | nil => simp [processBuffer_eq, parseFrame, sentBytes, FrameHandler.handleAll]
  | cons m messages ih =>
    obtain ⟨⟨⟨n, hn, opCode⟩, hkey, fits, same⟩, rest⟩ := List.forall_mem_cons.mp coded
    have wire := wire_makeFrameData hn opCode hkey fits
    rw [same] at wire
    obtain ⟨data, ok, -⟩ := parseFrame_of_wire wire (sentBytes messages)
    rw [show sentBytes (m :: messages) = makeFrameData m.1 m.2 ++ sentBytes messages from rfl,
      processBuffer_eq, ok, List.map_cons, FrameHandler.handleAll]
    simp only [List.drop_left]
    split
    · rfl
    · exact ih _ rest

/-- The frames that a sender codes one after the other are handled in their order, whatever the
pieces in which their bytes arrive and whatever is done with a frame, up to the first frame after
which the channel stops. If it takes them all, the buffer is empty afterwards. -/
theorem frames_received {σ : Type} (c : FrameHandler σ) (state : σ)
    (messages : List (List UInt8 × WebSocketFrame))
    (coded : ∀ m ∈ messages, (∃ n < 16, m.2.opCode = .ofValue n) ∧
      m.1.length = maskingKeyWidthInBytes ∧ m.2.payload.length ≤ maxPayloadLength ∧
      m.2.withoutReserved = m.2)
    (pieces : List Piece) (stream : pieces.flatMap Subtype.val = sentBytes messages) :
    pieces.foldl (Receiver.didReceiveSocketStreamData c) { state } =
      c.handleAll state (messages.map Prod.snd) := by
  rw [Receiver.foldl_receive, stream]
  exact Receiver.processBuffer_sentBytes c state messages coded

theorem frames_received_pieces :
    [⟨[0x81, 0x01], by decide⟩, ⟨[0x68], by decide⟩].foldl
        (Receiver.didReceiveSocketStreamData unmaskedFrames) { state := [] } =
      { state := [⟨.text, true, false, false, false, false, [0x68]⟩] } :=
  frames_received unmaskedFrames []
    [([0, 0, 0, 0], ⟨.text, true, false, false, false, false, [0x68]⟩)]
    (List.forall_mem_singleton.mpr ⟨⟨1, by decide, rfl⟩, rfl, by decide, rfl⟩) _ (by decide)

end Odyssey.WebSockets
