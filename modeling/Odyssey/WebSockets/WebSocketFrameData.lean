import Mathlib.Data.List.Induction
import Mathlib.Tactic.Ring
import Odyssey.WebSockets.WebSocketWire

/-!
# Coding of frames

`WebSocketFrame::makeFrameData` writes the frame that `parseFrame` reads. The bytes that
`cryptographicallyRandomValues` gives for a masking key are a parameter.
-/
namespace Odyssey.WebSockets

namespace WebSocketFrame

def payloadLengthWithEightByteExtendedLengthField : Nat := 127

/-- The key overwrites the placeholder in front of the payload and is laid over the payload. -/
def appendFramePayload (maskingKey : List UInt8) (frame : WebSocketFrame)
    (frameData : List UInt8) : List UInt8 :=
  if frame.masked then frameData ++ (maskingKey ++ unmask maskingKey frame.payload)
  else frameData ++ frame.payload

/-- The loop that fills in the length from its last byte to its first. -/
def extendedPayloadLength : Nat → Nat → List UInt8 → List UInt8
  | 0, _, bytes => bytes
  | i + 1, remaining, bytes =>
    extendedPayloadLength i (remaining >>> 8) (UInt8.ofNat (remaining &&& 0xFF) :: bytes)

/-- The header has no place for `reserved2` and `reserved3`. -/
def makeFrameData (maskingKey : List UInt8) (frame : WebSocketFrame) : List UInt8 :=
  let payloadLength := frame.payload.length
  let first := (if frame.final then finalBit else 0) ||| (if frame.compress then compressBit else 0)
    ||| UInt8.ofNat frame.opCode.value
  let second := if frame.masked then maskBit else 0
  appendFramePayload maskingKey frame <|
    if payloadLength ≤ maxPayloadLengthWithoutExtendedLengthField then
      [first, second ||| UInt8.ofNat payloadLength]
    else if payloadLength ≤ 0xFFFF then
      [first, second ||| UInt8.ofNat payloadLengthWithTwoByteExtendedLengthField,
        UInt8.ofNat ((payloadLength &&& 0xFF00) >>> 8), UInt8.ofNat (payloadLength &&& 0xFF)]
    else
      first :: (second ||| UInt8.ofNat payloadLengthWithEightByteExtendedLengthField) ::
        extendedPayloadLength 8 payloadLength []

/-! ## The length -/

theorem readLength_append (a b : List UInt8) :
    readLength (a ++ b) = readLength a * 256 ^ b.length + readLength b := by
  induction b using List.reverseRecOn with
  | nil => simp [readLength]
  | append_singleton b byte ih =>
    simp only [readLength, ← List.append_assoc, List.foldl_append, List.foldl_cons,
      List.foldl_nil, List.length_append, List.length_singleton, pow_succ] at ih ⊢
    rw [ih]
    ring

theorem toNat_ofNat_and (n : Nat) : (UInt8.ofNat (n &&& 0xFF)).toNat = n % 256 := by
  rw [show n &&& 0xFF = n % 256 from Nat.and_two_pow_sub_one_eq_mod n 8, UInt8.toNat_ofNat']
  exact Nat.mod_mod n 256

/-- The loop writes the length in network byte order. -/
theorem extendedPayloadLength_spec (count remaining : Nat) (bytes : List UInt8) :
    ∃ high, extendedPayloadLength count remaining bytes = high ++ bytes ∧ high.length = count ∧
      readLength high = remaining % 256 ^ count := by
  induction count generalizing remaining bytes with
  | zero => exact ⟨[], rfl, rfl, by simp [readLength, Nat.mod_one]⟩
  | succ count ih =>
    obtain ⟨high, eq, length, read⟩ :=
      ih (remaining >>> 8) (UInt8.ofNat (remaining &&& 0xFF) :: bytes)
    refine ⟨high ++ [UInt8.ofNat (remaining &&& 0xFF)], ?_, by simp [length], ?_⟩
    · rw [extendedPayloadLength, eq, List.append_assoc]
      rfl
    · have last : readLength [UInt8.ofNat (remaining &&& 0xFF)] = remaining % 256 := by
        rw [← toNat_ofNat_and]
        exact Nat.zero_add _
      have split : remaining % 256 ^ (count + 1) =
          remaining % 256 + 256 * (remaining / 256 % 256 ^ count) := by
        rw [Nat.pow_succ', Nat.mod_mul]
      have shift : remaining >>> 8 = remaining / 256 := Nat.shiftRight_eq_div_pow _ _
      rw [readLength_append, read, last, shift, split, List.length_singleton]
      ring

theorem readLength_two (n : Nat) (h : n ≤ 0xFFFF) :
    readLength [UInt8.ofNat ((n &&& 0xFF00) >>> 8), UInt8.ofNat (n &&& 0xFF)] = n := by
  have high : (n &&& 0xFF00) >>> 8 = (n >>> 8) &&& 0xFF := Nat.shiftRight_and_distrib
  simp only [readLength, List.foldl_cons, List.foldl_nil, high, toNat_ofNat_and]
  rw [Nat.shiftRight_eq_div_pow]
  omega

/-! ## The frame that is written -/

/-- What the written header says of the frame. -/
def withoutReserved (frame : WebSocketFrame) : WebSocketFrame :=
  { frame with reserved2 := false, reserved3 := false }

theorem makeFrameData_eq {frame : WebSocketFrame} {key : List UInt8}
    (fits : frame.payload.length ≤ maxPayloadLength) :
    ∃ length extended, Announces frame.payload.length length extended ∧
      makeFrameData key frame = frame.withoutReserved.firstByte ::
        secondByte frame.masked length :: (extended ++ if frame.masked
          then key ++ unmask key frame.payload else frame.payload) := by
  have first : (if frame.final then finalBit else 0) |||
      (if frame.compress then compressBit else 0) ||| UInt8.ofNat frame.opCode.value =
      frame.withoutReserved.firstByte := by
    simp only [firstByte, withoutReserved, Bool.false_eq_true, if_false, UInt8.or_zero]
    rfl
  have written (header : List UInt8) : appendFramePayload key frame header =
      header ++ if frame.masked then key ++ unmask key frame.payload else frame.payload := by
    unfold appendFramePayload
    split_ifs <;> rfl
  unfold makeFrameData
  simp only [first, written]
  have bound : maxPayloadLengthWithoutExtendedLengthField = 125 := rfl
  by_cases short : frame.payload.length ≤ maxPayloadLengthWithoutExtendedLengthField
  · rw [if_pos short]
    exact ⟨_, [], .short short, rfl⟩
  rw [if_neg short]
  by_cases medium : frame.payload.length ≤ 0xFFFF
  · rw [if_pos medium]
    exact ⟨126, _, .medium _ rfl (readLength_two _ medium) (by omega), rfl⟩
  · rw [if_neg medium]
    obtain ⟨bytes, eq, length, read⟩ := extendedPayloadLength_spec 8 frame.payload.length []
    dsimp only [maxPayloadLength] at fits
    rw [Nat.mod_eq_of_lt (by omega)] at read
    refine ⟨127, bytes, .long _ length read (by omega) (by omega), ?_⟩
    rw [eq, List.append_nil]
    rfl

theorem value_ofValue {n : Nat} (h : n < 16) :
    (OpCode.ofValue n).value = n := by
  have every : ∀ n < 16, (OpCode.ofValue n).value = n := by decide
  exact every n h

theorem wire_makeFrameData {frame : WebSocketFrame} {key : List UInt8} {n : Nat} (hn : n < 16)
    (opCode : frame.opCode = .ofValue n) (hkey : key.length = maskingKeyWidthInBytes)
    (fits : frame.payload.length ≤ maxPayloadLength) :
    Wire frame.withoutReserved (makeFrameData key frame) := by
  obtain ⟨length, extended, announced, eq⟩ := makeFrameData_eq fits
  have value : frame.opCode.value = n := by rw [opCode, value_ofValue hn]
  refine ⟨length, extended, if frame.masked then key else [], announced, ?_, ?_, ?_⟩
  · change _ = maskingKeyLength frame.masked
    unfold maskingKeyLength
    split_ifs
    · exact hkey
    · rfl
  · change frame.opCode.value < 16 ∧ OpCode.ofValue frame.opCode.value = frame.opCode
    rw [value]
    exact ⟨hn, opCode.symm⟩
  · rw [eq]
    simp only [withoutReserved]
    split_ifs <;> rfl

/-- What is missing of a frame is waited for. -/
theorem parseFrame_of_strict_initial {frame : WebSocketFrame} {data missing : List UInt8}
    (wire : Wire frame (data ++ missing)) (ne : missing ≠ []) :
    parseFrame data = .frameIncomplete := by
  obtain ⟨data', ok, -⟩ := parseFrame_of_wire wire []
  rw [List.append_nil] at ok
  apply parseFrame_eq_frameIncomplete_iff.mpr
  refine ⟨fun frame' bytes rest wire' eq => ?_, fun malformed => ?_⟩
  · obtain ⟨data'', ok', -⟩ := parseFrame_of_wire wire' (rest ++ missing)
    rw [← List.append_assoc, ← eq, ok] at ok'
    have ends := (ParseFrameResult.frameOK.inj ok').2.1
    have positive := List.length_pos_iff.mpr ne
    rw [eq, List.length_append, List.length_append] at ends
    omega
  · obtain ⟨e, error⟩ := parseFrame_of_malformed (malformed.append missing)
    rw [ok] at error
    cases error

/-- The length that the data announces has a shorter form. -/
def LengthNotMinimal (data : List UInt8) : Prop :=
  ∃ first second extended rest, data = first :: second :: (extended ++ rest) ∧
    (((second &&& payloadLengthMask).toNat = 126 ∧ extended.length = 2 ∧
        readLength extended ≤ 125) ∨
      ((second &&& payloadLengthMask).toNat = 127 ∧ extended.length = 8 ∧
        readLength extended ≤ 0xFFFF))

theorem LengthNotMinimal.malformed {data : List UInt8} (h : LengthNotMinimal data) :
    Malformed data := by
  obtain ⟨first, second, extended, rest, eq, forms⟩ := h
  refine ⟨first, second, extended, rest, eq, forms.imp_right ?_⟩
  exact fun ⟨form, length, small⟩ => ⟨form, length, .inl small⟩

/-- A written frame is read back, parts of it are waited for (and nothing is unmasked in them), and
lengths must be minimal. -/
structure RoundTrips (key : List UInt8) (frame : WebSocketFrame) : Prop where
  reads : ∀ trailing, ∃ data, parseFrame (makeFrameData key frame ++ trailing) =
    .frameOK frame (makeFrameData key frame).length data
  waits : ∀ data missing, makeFrameData key frame = data ++ missing → missing ≠ [] →
    parseFrame data = .frameIncomplete
  refuses : ∀ data, LengthNotMinimal data → ∃ e, parseFrame data = .frameError e

/-- Frames are coded exactly if they have no bits 2 and 3, which are not written. -/
theorem roundTrips_iff (frame : WebSocketFrame) (key : List UInt8) (n : Nat) (hn : n < 16)
    (opCode : frame.opCode = .ofValue n) (hkey : key.length = maskingKeyWidthInBytes)
    (fits : frame.payload.length ≤ maxPayloadLength) :
    RoundTrips key frame ↔ frame.reserved2 = false ∧ frame.reserved3 = false := by
  have wire := wire_makeFrameData hn opCode hkey fits
  constructor
  · intro h
    obtain ⟨data, ok⟩ := h.reads []
    obtain ⟨data', ok', -⟩ := parseFrame_of_wire wire []
    rw [ok] at ok'
    have same := (ParseFrameResult.frameOK.inj ok').1
    rw [same]
    exact ⟨rfl, rfl⟩
  · rintro ⟨reserved2, reserved3⟩
    have same : frame.withoutReserved = frame := by
      obtain ⟨_, _, _, _, _, _, _⟩ := frame
      simp only at reserved2 reserved3
      rw [withoutReserved, reserved2, reserved3]
    refine ⟨fun trailing => ?_, fun data missing eq => ?_, fun data h => ?_⟩
    · obtain ⟨data, ok, -⟩ := parseFrame_of_wire wire trailing
      rw [same] at ok
      exact ⟨data, ok⟩
    · rw [eq] at wire
      exact parseFrame_of_strict_initial wire
    · exact parseFrame_of_malformed h.malformed

theorem roundTrips_hello :
    RoundTrips [1, 2, 3, 4] ⟨.text, true, false, false, false, true, [72, 101, 108, 108, 111]⟩ :=
  (roundTrips_iff ⟨.text, true, false, false, false, true, [72, 101, 108, 108, 111]⟩ [1, 2, 3, 4] 1
    (by decide) rfl rfl (by decide)).mpr ⟨rfl, rfl⟩

/-- A frame with `reserved2` comes back without it. -/
theorem reserved2_not_written :
    let frame : WebSocketFrame := ⟨.text, true, false, true, false, false, []⟩
    parseFrame (makeFrameData [0, 0, 0, 0] frame) =
        .frameOK { frame with reserved2 := false } 2 [129, 0] ∧
      ¬RoundTrips [0, 0, 0, 0] frame := by
  have parsed : parseFrame (makeFrameData [0, 0, 0, 0] ⟨.text, true, false, true, false, false, []⟩)
      = .frameOK ⟨.text, true, false, false, false, false, []⟩ 2 [129, 0] := by
    decide +kernel
  refine ⟨parsed, fun h => ?_⟩
  obtain ⟨data, ok⟩ := h.reads []
  rw [List.append_nil, parsed] at ok
  cases ok

end WebSocketFrame

end Odyssey.WebSockets
