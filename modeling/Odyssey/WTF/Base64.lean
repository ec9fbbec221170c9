import Odyssey.WTF.ASCIICType
import Odyssey.WTF.CheckedArithmetic

/-!
# Base64

The encoder computes the size of its output first and then writes triples of bytes as groups of four
characters, with a line feed after every nineteen groups if it is asked for. The decoder collects
the values of the characters and turns them into bytes in place.
-/
namespace Odyssey.WTF.Base64

open CheckedArithmetic (inType)

def nonAlphabet : Int := -1

def base64EncMap : List UInt8 := [
    0x41, 0x42, 0x43, 0x44, 0x45, 0x46, 0x47, 0x48, 0x49, 0x4A, 0x4B, 0x4C, 0x4D, 0x4E, 0x4F, 0x50,
    0x51, 0x52, 0x53, 0x54, 0x55, 0x56, 0x57, 0x58, 0x59, 0x5A, 0x61, 0x62, 0x63, 0x64, 0x65, 0x66,
    0x67, 0x68, 0x69, 0x6A, 0x6B, 0x6C, 0x6D, 0x6E, 0x6F, 0x70, 0x71, 0x72, 0x73, 0x74, 0x75, 0x76,
    0x77, 0x78, 0x79, 0x7A, 0x30, 0x31, 0x32, 0x33, 0x34, 0x35, 0x36, 0x37, 0x38, 0x39, 0x2B, 0x2F]

def base64DecMap : List Int :=
  let n := nonAlphabet
  [
    n, n, n, n, n, n, n, n, n, n, n, n, n, n, n, n,
    n, n, n, n, n, n, n, n, n, n, n, n, n, n, n, n,
    n, n, n, n, n, n, n, n, n, n, n, 0x3E, n, n, n, 0x3F,
    0x34, 0x35, 0x36, 0x37, 0x38, 0x39, 0x3A, 0x3B, 0x3C, 0x3D, n, n, n, n, n, n,
    n, 0x00, 0x01, 0x02, 0x03, 0x04, 0x05, 0x06, 0x07, 0x08, 0x09, 0x0A, 0x0B, 0x0C, 0x0D, 0x0E,
    0x0F, 0x10, 0x11, 0x12, 0x13, 0x14, 0x15, 0x16, 0x17, 0x18, 0x19, n, n, n, n, n,
    n, 0x1A, 0x1B, 0x1C, 0x1D, 0x1E, 0x1F, 0x20, 0x21, 0x22, 0x23, 0x24, 0x25, 0x26, 0x27, 0x28,
    0x29, 0x2A, 0x2B, 0x2C, 0x2D, 0x2E, 0x2F, 0x30, 0x31, 0x32, 0x33, n, n, n, n, n]

def base64URLEncMap : List UInt8 := [
    0x41, 0x42, 0x43, 0x44, 0x45, 0x46, 0x47, 0x48, 0x49, 0x4A, 0x4B, 0x4C, 0x4D, 0x4E, 0x4F, 0x50,
    0x51, 0x52, 0x53, 0x54, 0x55, 0x56, 0x57, 0x58, 0x59, 0x5A, 0x61, 0x62, 0x63, 0x64, 0x65, 0x66,
    0x67, 0x68, 0x69, 0x6A, 0x6B, 0x6C, 0x6D, 0x6E, 0x6F, 0x70, 0x71, 0x72, 0x73, 0x74, 0x75, 0x76,
    0x77, 0x78, 0x79, 0x7A, 0x30, 0x31, 0x32, 0x33, 0x34, 0x35, 0x36, 0x37, 0x38, 0x39, 0x2D, 0x5F]

def base64URLDecMap : List Int :=
  let n := nonAlphabet
  [
    n, n, n, n, n, n, n, n, n, n, n, n, n, n, n, n,
    n, n, n, n, n, n, n, n, n, n, n, n, n, n, n, n,
    n, n, n, n, n, n, n, n, n, n, n, n, n, 0x3E, n, n,
    0x34, 0x35, 0x36, 0x37, 0x38, 0x39, 0x3A, 0x3B, 0x3C, 0x3D, n, n, n, n, n, n,
    n, 0x00, 0x01, 0x02, 0x03, 0x04, 0x05, 0x06, 0x07, 0x08, 0x09, 0x0A, 0x0B, 0x0C, 0x0D, 0x0E,
    0x0F, 0x10, 0x11, 0x12, 0x13, 0x14, 0x15, 0x16, 0x17, 0x18, 0x19, n, n, n, n, 0x3F,
    n, 0x1A, 0x1B, 0x1C, 0x1D, 0x1E, 0x1F, 0x20, 0x21, 0x22, 0x23, 0x24, 0x25, 0x26, 0x27, 0x28,
    0x29, 0x2A, 0x2B, 0x2C, 0x2D, 0x2E, 0x2F, 0x30, 0x31, 0x32, 0x33, n, n, n, n, n]

inductive Base64EncodePolicy
  | doNotInsertLFs
  | insertLFs
  | urlPolicy
  deriving DecidableEq

inductive Base64DecodePolicy
  | failOnInvalidCharacterOrExcessPadding
  | failOnInvalidCharacter
  | ignoreWhitespace
  | ignoreInvalidCharacters
  deriving DecidableEq

/-! ## Encoding

`out` is the part of the vector that has been written, so that `didx` is its length. A result of
`none` is a write past the end of the vector or an overflow of `count`. -/

def lineFeed : UInt8 := 0x0A

def equalsSign : UInt8 := 0x3D

def put (size : Nat) (out : List UInt8) (c : UInt8) : Option (List UInt8) :=
  if out.length < size then some (out ++ [c]) else none

def putAll (size : Nat) (out cs : List UInt8) : Option (List UInt8) := cs.foldlM (put size) out

/-- The indices of the four characters of three bytes. The bytes are signed in the source; the masks
remove the sign. -/
def tripleIndices (a b c : Nat) : List Nat :=
  [(a >>> 2) &&& 0o77, ((b >>> 4) &&& 0o17) ||| ((a <<< 4) &&& 0o77),
    ((c >>> 6) &&& 0o3) ||| ((b <<< 2) &&& 0o77), c &&& 0o77]

def pairIndices (a b : Nat) : List Nat :=
  [(a >>> 2) &&& 0o77, ((b >>> 4) &&& 0o17) ||| ((a <<< 4) &&& 0o77), (b <<< 2) &&& 0o77]

def singleIndices (a : Nat) : List Nat := [(a >>> 2) &&& 0o77, (a <<< 4) &&& 0o77]

def charsOf (encodeMap : List UInt8) (indices : List Nat) : List UInt8 :=
  indices.map fun index => encodeMap.getD index 0

def putLineFeed (isBreak : Bool) (size : Nat) (out : List UInt8) : Option (List UInt8) :=
  if isBreak then put size out lineFeed else some out

def nextCount (insertLFs : Bool) (count : Int) : Option Int :=
  if insertLFs then inType 32 (count + 4) else some count

/-- The loop over the triples: what is left of the data, `count`, and the output. -/
def encodeLoop (encodeMap : List UInt8) (insertLFs : Bool) (size : Nat) :
    List UInt8 → Int → List UInt8 → Option (List UInt8 × Int × List UInt8)
  | a :: b :: c :: data, count, out => do
    let out ← putLineFeed (insertLFs && count ≠ 0 && count.tmod 76 = 0) size out
    let count ← nextCount insertLFs count
    let out ← putAll size out (charsOf encodeMap (tripleIndices a.toNat b.toNat c.toNat))
    encodeLoop encodeMap insertLFs size data count out
  | data, count, out => some (data, count, out)

/-- The last one or two bytes. -/
def encodeTail (encodeMap : List UInt8) (insertLFs : Bool) (size : Nat) (data : List UInt8)
    (count : Int) (out : List UInt8) : Option (List UInt8) :=
  match data with
  | [] => some out
  | a :: data => do
    let out ← putLineFeed (insertLFs && 0 < count && count.tmod 76 = 0) size out
    match data with
    | b :: _ => putAll size out (charsOf encodeMap (pairIndices a.toNat b.toNat))
    | [] => putAll size out (charsOf encodeMap (singleIndices a.toNat))

def maxInputBufferSize : Nat := (2 ^ 32 - 1) / 77 * 76 / 4 * 3 - 2

/-- The size of the output, and whether line feeds are inserted. -/
def outSize (len : Nat) (policy : Base64EncodePolicy) : Nat × Bool :=
  let outLength := (len + 2) / 3 * 4 % 2 ^ 32
  let insertLFs := policy = .insertLFs ∧ outLength > 76
  (if insertLFs then (outLength + (outLength - 1) / 76) % 2 ^ 32 else outLength, decide insertLFs)

def base64EncodeInternal (data : List UInt8) (policy : Base64EncodePolicy)
    (encodeMap : List UInt8) : Option (List UInt8) :=
  if data.length = 0 then some []
  else if data.length > maxInputBufferSize then some []
  else do
    let (size, insertLFs) := outSize data.length policy
    let (rest, count, out) ← encodeLoop encodeMap insertLFs size data 0 []
    let out ← encodeTail encodeMap insertLFs size rest count out
    if policy = .urlPolicy then some out
    else some (out ++ List.replicate (size - out.length) equalsSign)

def base64Encode (data : List UInt8) (policy : Base64EncodePolicy) : Option (List UInt8) :=
  base64EncodeInternal data policy base64EncMap

def base64URLEncode (data : List UInt8) : Option (List UInt8) :=
  base64EncodeInternal data .urlPolicy base64URLEncMap

/-! ## Decoding

A result of `none` is the return value false. -/

section
variable (isWhiteSpaceNeutral : UInt16 → Bool)

/-- Beyond ASCII, `u_charDirection` says what is white space. -/
def isSpaceOrNewline (c : UInt16) : Bool :=
  if c ≤ 0x7F then ASCII.isASCIISpace c else isWhiteSpaceNeutral c

/-- The loop over the characters: `equalsSignCount` and the values of the characters. -/
def decodeScan (length : Nat) (policy : Base64DecodePolicy) (decodeMap : List Int) :
    Text → Nat → List UInt8 → Option (Nat × List UInt8)
  | [], equalsSignCount, out => some (equalsSignCount, out)
  | ch :: data, equalsSignCount, out =>
    if ch = 0x3D then
      let equalsSignCount := equalsSignCount + 1
      if policy = .failOnInvalidCharacterOrExcessPadding ∧
          (length % 4 ≠ 0 ∨ equalsSignCount > 2) then none
      else decodeScan length policy decodeMap data equalsSignCount out
    else
      let decodedCharacter := if ch < 128 then decodeMap.getD ch.toNat 0 else nonAlphabet
      if decodedCharacter ≠ nonAlphabet then
        if equalsSignCount ≠ 0 then none
        else
          decodeScan length policy decodeMap data equalsSignCount
            (out ++ [UInt8.ofNat decodedCharacter.toNat])
      else if policy = .failOnInvalidCharacterOrExcessPadding ∨ policy = .failOnInvalidCharacter ∨
          (policy = .ignoreWhitespace ∧ ¬isSpaceOrNewline isWhiteSpaceNeutral ch) then none
      else decodeScan length policy decodeMap data equalsSignCount out

end

def firstByte (v₀ v₁ : UInt8) : UInt8 :=
  UInt8.ofNat (((v₀.toNat <<< 2) &&& 255) ||| ((v₁.toNat >>> 4) &&& 0o3))

def secondByte (v₁ v₂ : UInt8) : UInt8 :=
  UInt8.ofNat (((v₁.toNat <<< 4) &&& 255) ||| ((v₂.toNat >>> 2) &&& 0o17))

def thirdByte (v₂ v₃ : UInt8) : UInt8 :=
  UInt8.ofNat (((v₂.toNat <<< 6) &&& 255) ||| (v₃.toNat &&& 0o77))

/-- The loop over groups of four values, in place. -/
def decodeLoop (outLength : Nat) : Nat → Nat → Nat → List UInt8 → Nat × Nat × List UInt8
  | 0, sidx, didx, out => (sidx, didx, out)
  | turns + 1, sidx, didx, out =>
    if didx + 2 < outLength then
      let out := out.set didx (firstByte (out.getD sidx 0) (out.getD (sidx + 1) 0))
      let out := out.set (didx + 1) (secondByte (out.getD (sidx + 1) 0) (out.getD (sidx + 2) 0))
      let out := out.set (didx + 2) (thirdByte (out.getD (sidx + 2) 0) (out.getD (sidx + 3) 0))
      decodeLoop outLength turns (sidx + 4) (didx + 3) out
    else (sidx, didx, out)

/-- The bytes of the values, from the conversion in place. -/
def decodeValues (outLength : Nat) (out : List UInt8) : List UInt8 :=
  let (sidx, didx, out) := decodeLoop outLength outLength 0 0 out
  let out := if didx < outLength then
      out.set didx (firstByte (out.getD sidx 0) (out.getD (sidx + 1) 0))
    else out
  let didx := didx + 1
  let out := if didx < outLength then
      out.set didx (secondByte (out.getD (sidx + 1) 0) (out.getD (sidx + 2) 0))
    else out
  out.take outLength

section
variable (isWhiteSpaceNeutral : UInt16 → Bool) (fresh : Nat → UInt8)

/-- `fresh` is what the memory of the vector held when it was grown. Where no character has a value,
the vector is returned as it was grown. -/
def base64DecodeInternal (data : Text) (policy : Base64DecodePolicy) (decodeMap : List Int) :
    Option (List UInt8) :=
  if data.length = 0 then some []
  else do
    let (equalsSignCount, out) ←
      decodeScan isWhiteSpaceNeutral data.length policy decodeMap data 0 []
    if out.length = 0 then
      if equalsSignCount = 0 then some ((List.range data.length).map fresh) else none
    else if out.length % 4 = 1 then none
    else
      let outLength := out.length - (out.length + 3) / 4
      if outLength = 0 then none else some (decodeValues outLength out)

def base64Decode (data : Text) (policy : Base64DecodePolicy) : Option (List UInt8) :=
  base64DecodeInternal isWhiteSpaceNeutral fresh data policy base64DecMap

def base64URLDecode (data : Text) : Option (List UInt8) :=
  base64DecodeInternal isWhiteSpaceNeutral fresh data .failOnInvalidCharacter base64URLDecMap

end

end Odyssey.WTF.Base64
