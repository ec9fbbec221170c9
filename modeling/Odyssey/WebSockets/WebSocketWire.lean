import Mathlib.Data.List.Basic
import Odyssey.WebSockets.WebSocketFrame

/-!
# Frames on the wire

The base framing of RFC 6455: two bytes of flags, opcode and length, an extended length of two or
eight bytes if the length needs one, a masking key, and the payload. `parseFrame` reads exactly this
format: it returns the frame that stands at the beginning of the data, it fails exactly when the
length announced there is not allowed, and it waits in all other cases.
-/
namespace Odyssey.WebSockets

namespace WebSocketFrame

/-! ## The format -/

def firstByte (frame : WebSocketFrame) : UInt8 :=
  (if frame.final then finalBit else 0) ||| (if frame.compress then compressBit else 0) |||
    (if frame.reserved2 then reserved2Bit else 0) |||
      (if frame.reserved3 then reserved3Bit else 0) |||
    UInt8.ofNat frame.opCode.value

def secondByte (masked : Bool) (length : Nat) : UInt8 :=
  (if masked then maskBit else 0) ||| UInt8.ofNat length

/-- The length in the second byte and the bytes of the extended length that announce a payload of
`n` bytes: the shortest form, and at most 63 bits. -/
inductive Announces (n : Nat) : Nat → List UInt8 → Prop
  | short : n ≤ 125 → Announces n n []
  | medium (extended : List UInt8) : extended.length = 2 → readLength extended = n → 125 < n →
      Announces n 126 extended
  | long (extended : List UInt8) : extended.length = 8 → readLength extended = n → 0xFFFF < n →
      n < 2 ^ 63 → Announces n 127 extended

/-- The bytes are this frame. -/
def Wire (frame : WebSocketFrame) (bytes : List UInt8) : Prop :=
  ∃ length extended maskingKey, Announces frame.payload.length length extended ∧
    maskingKey.length = maskingKeyLength frame.masked ∧
    (frame.opCode.value < 16 ∧ OpCode.ofValue frame.opCode.value = frame.opCode) ∧
    bytes = frame.firstByte :: secondByte frame.masked length :: (extended ++ (maskingKey ++
      if frame.masked then unmask maskingKey frame.payload else frame.payload))

/-- The data begins with a length that is not in its shortest form or does not fit into 63 bits. -/
def Malformed (data : List UInt8) : Prop :=
  ∃ first second extended rest, data = first :: second :: (extended ++ rest) ∧
    (((second &&& payloadLengthMask).toNat = 126 ∧ extended.length = 2 ∧
        readLength extended ≤ 125) ∨
      ((second &&& payloadLengthMask).toNat = 127 ∧ extended.length = 8 ∧
        (readLength extended ≤ 0xFFFF ∨ 2 ^ 63 ≤ readLength extended)))

/-- The data neither begins with a whole frame nor with a malformed length. -/
def Unfinished (data : List UInt8) : Prop :=
  (∀ frame bytes rest, Wire frame bytes → data ≠ bytes ++ rest) ∧ ¬Malformed data

/-! ## Bits -/

theorem exists_firstByte (b : UInt8) :
    ∀ frame : WebSocketFrame, frame.opCode = OpCode.ofValue (b &&& opCodeMask).toNat →
      frame.final = (b &&& finalBit != 0) → frame.compress = (b &&& compressBit != 0) →
      frame.reserved2 = (b &&& reserved2Bit != 0) → frame.reserved3 = (b &&& reserved3Bit != 0) →
      frame.firstByte = b ∧ frame.opCode.value < 16 ∧
        OpCode.ofValue frame.opCode.value = frame.opCode := by
  have every : ∀ n < 256, ∀ frame : WebSocketFrame,
      frame = ⟨OpCode.ofValue (UInt8.ofNat n &&& opCodeMask).toNat, UInt8.ofNat n &&& finalBit != 0,
        UInt8.ofNat n &&& compressBit != 0, UInt8.ofNat n &&& reserved2Bit != 0,
        UInt8.ofNat n &&& reserved3Bit != 0, false, []⟩ →
      frame.firstByte = UInt8.ofNat n ∧ frame.opCode.value < 16 ∧
        OpCode.ofValue frame.opCode.value = frame.opCode := by
    simp only [forall_eq]
    decide +kernel
  rintro ⟨opCode, final, compress, reserved2, reserved3, masked, payload⟩ rfl rfl rfl rfl rfl
  have := every b.toNat b.toNat_lt _ rfl
  rw [UInt8.ofNat_toNat] at this
  exact this

theorem firstByte_bits (frame : WebSocketFrame) (h : frame.opCode.value < 16) :
    OpCode.ofValue (frame.firstByte &&& opCodeMask).toNat = OpCode.ofValue frame.opCode.value ∧
      (frame.firstByte &&& finalBit != 0) = frame.final ∧
      (frame.firstByte &&& compressBit != 0) = frame.compress ∧
      (frame.firstByte &&& reserved2Bit != 0) = frame.reserved2 ∧
      (frame.firstByte &&& reserved3Bit != 0) = frame.reserved3 := by
  have every : ∀ v < 16, ∀ final compress reserved2 reserved3 : Bool,
      let b : UInt8 := (if final then finalBit else 0) ||| (if compress then compressBit else 0) |||
        (if reserved2 then reserved2Bit else 0) ||| (if reserved3 then reserved3Bit else 0) |||
        UInt8.ofNat v
      (b &&& opCodeMask).toNat = v ∧ (b &&& finalBit != 0) = final ∧
        (b &&& compressBit != 0) = compress ∧ (b &&& reserved2Bit != 0) = reserved2 ∧
        (b &&& reserved3Bit != 0) = reserved3 := by
    decide +kernel
  have := every _ h frame.final frame.compress frame.reserved2 frame.reserved3
  exact ⟨congrArg OpCode.ofValue this.1, this.2⟩

theorem secondByte_bits (masked : Bool) {length : Nat} (h : length < 128) :
    isMasked (secondByte masked length) = masked ∧
      (secondByte masked length &&& payloadLengthMask).toNat = length := by
  have every : ∀ length < 128, ∀ masked : Bool, isMasked (secondByte masked length) = masked ∧
      (secondByte masked length &&& payloadLengthMask).toNat = length := by
    decide +kernel
  exact every length h masked

theorem secondByte_eq (b : UInt8) :
    secondByte (isMasked b) (b &&& payloadLengthMask).toNat = b ∧
      (b &&& payloadLengthMask).toNat < 128 := by
  have every : ∀ n < 256, secondByte (isMasked (UInt8.ofNat n))
      (UInt8.ofNat n &&& payloadLengthMask).toNat = UInt8.ofNat n ∧
      (UInt8.ofNat n &&& payloadLengthMask).toNat < 128 := by
    decide +kernel
  have := every b.toNat b.toNat_lt
  rwa [UInt8.ofNat_toNat] at this

/-! ## The announced length -/

theorem maskingKeyLength_le (masked : Bool) : maskingKeyLength masked ≤ 4 := by
  cases masked <;> simp [maskingKeyLength, maskingKeyWidthInBytes]

variable {extended data : List UInt8} {b : UInt8}

theorem Announces.lt {n length : Nat} (h : Announces n length extended) :
    length < 128 := by
  cases h <;> omega

theorem readLength_lt (h : extended.length = 2) :
    readLength extended < 2 ^ 16 := by
  obtain ⟨a, b, rfl⟩ := List.length_eq_two.mp h
  have := a.toNat_lt
  have := b.toNat_lt
  simp only [readLength, List.foldl_cons, List.foldl_nil]
  omega

theorem readPayloadLength_nil (h : (b &&& payloadLengthMask).toNat ≤ 125) :
    readPayloadLength b [] = .ok (b &&& payloadLengthMask).toNat := by
  have key := maskingKeyLength_le (isMasked b)
  simp only [readPayloadLength, List.length_nil, if_true, maxPayloadLength, maxSize]
  rw [if_neg (by omega), if_neg (by omega), if_neg (by omega)]

theorem readPayloadLength_two (h : extended.length = 2) :
    readPayloadLength b extended = if readLength extended ≤ 125 then
      .error "The minimal number of bytes MUST be used to encode the length"
      else .ok (readLength extended) := by
  have key := maskingKeyLength_le (isMasked b)
  have fits := readLength_lt h
  simp only [readPayloadLength, h, if_neg (show ¬2 = 0 by decide), true_and, maxPayloadLength,
    maxSize, maxPayloadLengthWithoutExtendedLengthField]
  refine if_congr Iff.rfl rfl ?_
  rw [if_neg (by omega), if_neg (by omega)]

theorem readPayloadLength_eight (h : extended.length = 8) :
    readPayloadLength b extended = if readLength extended ≤ 0xFFFF then
      .error "The minimal number of bytes MUST be used to encode the length"
      else if 2 ^ 63 ≤ readLength extended then .error
        ("WebSocket frame length too large: " ++ toString (readLength extended) ++ " bytes")
      else .ok (readLength extended) := by
  have key := maskingKeyLength_le (isMasked b)
  simp only [readPayloadLength, h, if_neg (show ¬8 = 0 by decide), true_and, maxPayloadLength,
    maxSize]
  rw [if_neg (by omega : ¬(8 = 2 ∧ _))]
  refine if_congr Iff.rfl rfl (if_congr ?_ rfl rfl)
  omega

/-- The three forms of the length in the second byte. -/
theorem size_cases (b : UInt8) :
    ((b &&& payloadLengthMask).toNat ≤ 125 ∧ extendedPayloadLengthSize b = 0) ∨
      ((b &&& payloadLengthMask).toNat = 126 ∧ extendedPayloadLengthSize b = 2) ∨
      ((b &&& payloadLengthMask).toNat = 127 ∧ extendedPayloadLengthSize b = 8) := by
  have small := (secondByte_eq b).2
  unfold extendedPayloadLengthSize maxPayloadLengthWithoutExtendedLengthField
    payloadLengthWithTwoByteExtendedLengthField
  dsimp only
  generalize (b &&& payloadLengthMask).toNat = m at small
  split_ifs <;> omega

theorem read_of_announces {n : Nat} (h : Announces n (b &&& payloadLengthMask).toNat extended) :
    extendedPayloadLengthSize b = extended.length ∧ readPayloadLength b extended = .ok n := by
  generalize hm : (b &&& payloadLengthMask).toNat = m at h
  cases h with
  | short small =>
    subst hm
    refine ⟨?_, readPayloadLength_nil small⟩
    rcases size_cases b with h | h | h
    · exact h.2
    · omega
    · omega
  | medium _ size read large =>
    refine ⟨?_, ?_⟩
    · rw [size]
      rcases size_cases b with h | h | h <;> omega
    · rw [readPayloadLength_two size, read, if_neg (by omega)]
  | long _ size read large fits =>
    refine ⟨?_, ?_⟩
    · rw [size]
      rcases size_cases b with h | h | h <;> omega
    · rw [readPayloadLength_eight size, read, if_neg (by omega), if_neg (by omega)]

theorem announces_of_read {n : Nat} (size : extended.length = extendedPayloadLengthSize b)
    (h : readPayloadLength b extended = .ok n) :
    Announces n (b &&& payloadLengthMask).toNat extended := by
  rcases size_cases b with ⟨form, hsize⟩ | ⟨form, hsize⟩ | ⟨form, hsize⟩ <;> rw [hsize] at size
  · obtain rfl := List.length_eq_zero_iff.mp size
    rw [readPayloadLength_nil form] at h
    cases h
    exact .short form
  · rw [readPayloadLength_two size] at h
    split_ifs at h with small
    cases h
    rw [form]
    exact .medium extended size rfl (by omega)
  · rw [readPayloadLength_eight size] at h
    split_ifs at h with small large
    cases h
    rw [form]
    exact .long extended size rfl (by omega) (by omega)

theorem malformed_of_read {first : UInt8} {rest : List UInt8} {e : String}
    (size : extended.length = extendedPayloadLengthSize b)
    (h : readPayloadLength b extended = .error e) :
    Malformed (first :: b :: (extended ++ rest)) := by
  refine ⟨first, b, extended, rest, rfl, ?_⟩
  rcases size_cases b with ⟨form, hsize⟩ | ⟨form, hsize⟩ | ⟨form, hsize⟩ <;> rw [hsize] at size
  · obtain rfl := List.length_eq_zero_iff.mp size
    rw [readPayloadLength_nil form] at h
    cases h
  · rw [readPayloadLength_two size] at h
    split_ifs at h with small
    exact .inl ⟨form, size, small⟩
  · rw [readPayloadLength_eight size] at h
    split_ifs at h with small large
    · exact .inr ⟨form, size, .inl small⟩
    · exact .inr ⟨form, size, .inr large⟩

theorem parseFrame_of_malformed (h : Malformed data) :
    ∃ e, parseFrame data = .frameError e := by
  obtain ⟨first, second, extended, rest, rfl, bad⟩ := h
  have size : extendedPayloadLengthSize second = extended.length := by
    rcases size_cases second with h | h | h <;> omega
  have refused : ∃ e, readPayloadLength second extended = .error e := by
    rcases bad with ⟨-, length, small⟩ | ⟨-, length, small⟩
    · rw [readPayloadLength_two length, if_pos small]
      exact ⟨_, rfl⟩
    · rw [readPayloadLength_eight length]
      split_ifs with h1 h2
      · exact ⟨_, rfl⟩
      · exact ⟨_, rfl⟩
      · omega
  obtain ⟨e, he⟩ := refused
  refine ⟨e, ?_⟩
  simp only [parseFrame, size, List.length_append, List.take_left, he]
  rw [if_neg (by omega)]

/-! ## Reading frames -/

@[simp] theorem length_unmask (key payload : List UInt8) :
    (unmask key payload).length = payload.length := by
  simp [unmask]

theorem unmask_unmask (key payload : List UInt8) : unmask key (unmask key payload) = payload := by
  refine List.ext_getElem (by simp) fun i h h' => ?_
  simp only [unmask, List.getElem_mapIdx, UInt8.xor_assoc, UInt8.xor_self, UInt8.xor_zero]

/-- The frame that `parseFrame` builds from its two first bytes. -/
def ofBytes (first : UInt8) (masked : Bool) (payload : List UInt8) : WebSocketFrame :=
  { opCode := OpCode.ofValue (first &&& opCodeMask).toNat
    final := first &&& finalBit != 0
    compress := first &&& compressBit != 0
    reserved2 := first &&& reserved2Bit != 0
    reserved3 := first &&& reserved3Bit != 0
    masked
    payload }

theorem ofBytes_firstByte {frame : WebSocketFrame} (hvalue : frame.opCode.value < 16)
    (hop : OpCode.ofValue frame.opCode.value = frame.opCode) :
    ofBytes frame.firstByte frame.masked frame.payload = frame := by
  obtain ⟨h1, h2, h3, h4, h5⟩ := firstByte_bits frame hvalue
  simp only [ofBytes, h1, h2, h3, h4, h5, hop]

theorem parsePayload_eq {first second : UInt8} {header key received rest : List UInt8}
    (hkey : key.length = maskingKeyLength (isMasked second)) :
    parsePayload first second received.length header.length
        (header ++ (key ++ (received ++ rest))) =
      let payload := if isMasked second then unmask key received else received
      .frameOK (ofBytes first (isMasked second) payload)
        (header.length + key.length + received.length) (header ++ key ++ payload ++ rest) := by
  have start : (header ++ (key ++ (received ++ rest))).drop (header.length + key.length) =
      received ++ rest := by
    rw [← List.append_assoc, ← List.length_append, List.drop_left]
  have taken : (header ++ (key ++ (received ++ rest))).take (header.length + key.length) =
      header ++ key := by
    rw [← List.append_assoc, ← List.length_append, List.take_left]
  have payload : (if isMasked second then unmask
      (((header ++ (key ++ (received ++ rest))).drop header.length).take maskingKeyWidthInBytes)
      received else received) = if isMasked second then unmask key received else received := by
    split_ifs with masked
    · rw [List.drop_left, show maskingKeyWidthInBytes = key.length by
        rw [hkey, masked, maskingKeyLength, if_pos rfl], List.take_left]
    · rfl
  simp only [parsePayload, ← hkey, start, taken, List.take_left, payload]
  rw [if_neg (by simp only [List.length_append]; omega), ← List.drop_drop, start, List.drop_left]
  rfl

theorem parseFrame_eq {first second : UInt8} {key received rest : List UInt8}
    (announced : Announces received.length (second &&& payloadLengthMask).toNat extended)
    (hkey : key.length = maskingKeyLength (isMasked second)) :
    parseFrame (first :: second :: (extended ++ (key ++ (received ++ rest)))) =
      let payload := if isMasked second then unmask key received else received
      .frameOK (ofBytes first (isMasked second) payload)
        (2 + extended.length + key.length + received.length)
        (first :: second :: (extended ++ (key ++ (payload ++ rest)))) := by
  obtain ⟨size, read⟩ := read_of_announces announced
  have eq : parsePayload first second received.length (first :: second :: extended).length
      ((first :: second :: extended) ++ (key ++ (received ++ rest))) = _ := parsePayload_eq hkey
  simp only [List.cons_append, List.append_assoc, List.length_cons] at eq
  simp only [parseFrame, size, List.take_left, read]
  rw [if_neg (by simp), Nat.add_comm 2, eq]

theorem parseFrame_of_wire {frame : WebSocketFrame} {bytes : List UInt8} (h : Wire frame bytes)
    (rest : List UInt8) :
    ∃ data, parseFrame (bytes ++ rest) = .frameOK frame bytes.length data ∧
      (frame.masked = false → data = bytes ++ rest) := by
  obtain ⟨length, extended, key, announced, hkey, ⟨hvalue, hop⟩, rfl⟩ := h
  obtain ⟨masked, hlength⟩ := secondByte_bits frame.masked announced.lt
  generalize hreceived :
    (if frame.masked then unmask key frame.payload else frame.payload) = received
  have received_length : received.length = frame.payload.length := by
    rw [← hreceived]
    split_ifs <;> simp
  have payload : (if frame.masked then unmask key received else received) = frame.payload := by
    rw [← hreceived]
    split_ifs
    · exact unmask_unmask key frame.payload
    · rfl
  have eq : parseFrame (frame.firstByte :: secondByte frame.masked length ::
      (extended ++ (key ++ (received ++ rest)))) = _ :=
    parseFrame_eq (by rwa [hlength, received_length]) (by rw [masked, hkey])
  dsimp only at eq
  rw [masked, payload, ofBytes_firstByte hvalue hop] at eq
  refine ⟨frame.firstByte :: secondByte frame.masked length ::
    (extended ++ (key ++ (frame.payload ++ rest))), ?_, fun unmasked => ?_⟩
  · simp only [List.cons_append, List.append_assoc, eq, List.length_cons, List.length_append]
    congr 1
    omega
  · rw [unmasked, if_neg (by decide)] at hreceived
    simp [hreceived]

theorem exists_append_append {l : List UInt8} {m n : Nat} (h : m + n ≤ l.length) :
    ∃ a b c, l = a ++ (b ++ c) ∧ a.length = m ∧ b.length = n := by
  refine ⟨l.take m, (l.drop m).take n, (l.drop m).drop n, ?_, ?_, ?_⟩
  · rw [List.take_append_drop, List.take_append_drop]
  · rw [List.length_take_of_le (by omega)]
  · rw [List.length_take_of_le (by rw [List.length_drop]; omega)]

theorem wire_of_parseFrame {data' : List UInt8} {frame : WebSocketFrame} {frameEnd : Nat}
    (h : parseFrame data = .frameOK frame frameEnd data') :
    ∃ bytes rest, Wire frame bytes ∧ data = bytes ++ rest := by
  have hparse := h
  unfold parseFrame at h
  split at h
  · rename_i first second p
    dsimp only at h
    split_ifs at h with short
    split at h
    · cases h
    rename_i payloadLength read
    obtain ⟨extended, q, rfl, hextended⟩ :
        ∃ extended q, p = extended ++ q ∧ extended.length = extendedPayloadLengthSize second :=
      ⟨_, _, (List.take_append_drop _ p).symm, List.length_take_of_le (by omega)⟩
    rw [← hextended, List.take_left] at read
    have announced := announces_of_read hextended read
    by_cases long : maskingKeyLength (isMasked second) + payloadLength ≤ q.length
    · obtain ⟨key, received, rest, rfl, hkey, rfl⟩ := exists_append_append long
      rw [parseFrame_eq announced hkey] at hparse
      obtain ⟨rfl, -, -⟩ := ParseFrameResult.frameOK.inj hparse
      generalize hpayload : (if isMasked second then unmask key received else received) = payload
      have back : (if isMasked second then unmask key payload else payload) = received := by
        rw [← hpayload]
        split_ifs
        · exact unmask_unmask key received
        · rfl
      have same : payload.length = received.length := by
        rw [← hpayload]
        split_ifs <;> simp
      have bits :=
        exists_firstByte first (ofBytes first (isMasked second) payload) rfl rfl rfl rfl rfl
      refine ⟨first :: second :: (extended ++ (key ++ received)), rest,
        ⟨(second &&& payloadLengthMask).toNat, extended, key, ?_, hkey, bits.2, ?_⟩, by simp⟩
      · exact same.symm ▸ announced
      · rw [bits.1]
        dsimp only [ofBytes]
        rw [(secondByte_eq second).1]
        exact congrArg (fun l => first :: second :: (extended ++ (key ++ l))) back.symm
    · rw [parsePayload, if_pos] at h
      · cases h
      · simp only [List.length_cons, List.length_append]
        omega
  · cases h

theorem malformed_of_parseFrame {e : String} (h : parseFrame data = .frameError e) :
    Malformed data := by
  unfold parseFrame at h
  split at h
  · rename_i first second p
    dsimp only at h
    split_ifs at h with short
    split at h
    · rename_i e' refused
      rw [← List.take_append_drop (extendedPayloadLengthSize second) p]
      exact malformed_of_read (List.length_take_of_le (by omega)) refused
    · unfold parsePayload at h
      dsimp only at h
      split_ifs at h
  · cases h

theorem parseFrame_eq_frameIncomplete_iff :
    parseFrame data = .frameIncomplete ↔ Unfinished data := by
  constructor
  · intro h
    refine ⟨fun frame bytes rest wire e => ?_, fun malformed => ?_⟩
    · obtain ⟨_, ok, -⟩ := parseFrame_of_wire wire rest
      rw [← e, h] at ok
      cases ok
    · obtain ⟨e, error⟩ := parseFrame_of_malformed malformed
      rw [h] at error
      cases error
  · rintro ⟨no_frame, not_malformed⟩
    cases h : parseFrame data with
    | frameOK frame frameEnd data' =>
      obtain ⟨bytes, rest, wire, e⟩ := wire_of_parseFrame h
      exact absurd e (no_frame frame bytes rest wire)
    | frameIncomplete => rfl
    | frameError e => exact absurd (malformed_of_parseFrame h) not_malformed

theorem Malformed.append (h : Malformed data) (more : List UInt8) :
    Malformed (data ++ more) := by
  obtain ⟨first, second, extended, rest, rfl, bad⟩ := h
  exact ⟨first, second, extended, rest ++ more, by simp, bad⟩

end WebSocketFrame

end Odyssey.WebSockets
