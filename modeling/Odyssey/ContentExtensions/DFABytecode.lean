import Odyssey.Lib.Bytes

/-!
# The bytecode of the content extensions

The low four bits of the first byte of an instruction are its kind, the high four bits of an
instruction with a jump are the size of its jump distances.
-/
namespace Odyssey.ContentExtensions

open Lib.Bytes (littleEndian readByte readLE)

inductive DFABytecodeInstruction where
  | checkValueCaseInsensitive
  | checkValueCaseSensitive
  | jumpTableCaseInsensitive
  | jumpTableCaseSensitive
  | checkValueRangeCaseInsensitive
  | checkValueRangeCaseSensitive
  | appendAction
  | appendActionWithIfDomain
  | testFlagsAndAppendAction
  | testFlagsAndAppendActionWithIfDomain
  | terminate
  | jump
deriving DecidableEq, Repr

def DFABytecodeInstruction.code : DFABytecodeInstruction → Nat
  | .checkValueCaseInsensitive => 0x0
  | .checkValueCaseSensitive => 0x1
  | .jumpTableCaseInsensitive => 0x2
  | .jumpTableCaseSensitive => 0x3
  | .checkValueRangeCaseInsensitive => 0x4
  | .checkValueRangeCaseSensitive => 0x5
  | .appendAction => 0x6
  | .appendActionWithIfDomain => 0x7
  | .testFlagsAndAppendAction => 0x8
  | .testFlagsAndAppendActionWithIfDomain => 0x9
  | .terminate => 0xA
  | .jump => 0xB

def DFABytecodeInstruction.ofCode : Nat → Option DFABytecodeInstruction
  | 0x0 => some .checkValueCaseInsensitive
  | 0x1 => some .checkValueCaseSensitive
  | 0x2 => some .jumpTableCaseInsensitive
  | 0x3 => some .jumpTableCaseSensitive
  | 0x4 => some .checkValueRangeCaseInsensitive
  | 0x5 => some .checkValueRangeCaseSensitive
  | 0x6 => some .appendAction
  | 0x7 => some .appendActionWithIfDomain
  | 0x8 => some .testFlagsAndAppendAction
  | 0x9 => some .testFlagsAndAppendActionWithIfDomain
  | 0xA => some .terminate
  | 0xB => some .jump
  | _ => none

inductive DFABytecodeJumpSize where
  | int8
  | int16
  | int24
  | int32
deriving DecidableEq, Repr

namespace DFABytecodeJumpSize

def code : DFABytecodeJumpSize → Nat
  | .int8 => 0x10
  | .int16 => 0x20
  | .int24 => 0x30
  | .int32 => 0x40

def ofCode : Nat → Option DFABytecodeJumpSize
  | 0x10 => some .int8
  | 0x20 => some .int16
  | 0x30 => some .int24
  | 0x40 => some .int32
  | _ => none

def inBytes : DFABytecodeJumpSize → Nat
  | .int8 => 1
  | .int16 => 2
  | .int24 => 3
  | .int32 => 4

/-- `std::max` of two sizes. -/
def max (a b : DFABytecodeJumpSize) : DFABytecodeJumpSize := if a.code < b.code then b else a

/-- The distance is a signed number of this size. -/
def Fits (size : DFABytecodeJumpSize) (distance : Int) : Prop :=
  -(2 ^ (8 * size.inBytes - 1)) ≤ distance ∧ distance < 2 ^ (8 * size.inBytes - 1)

instance (size : DFABytecodeJumpSize) (distance : Int) : Decidable (size.Fits distance) :=
  inferInstanceAs (Decidable (_ ∧ _))

end DFABytecodeJumpSize

def smallestPossibleJumpSize (longestPossibleJump : Int) : DFABytecodeJumpSize :=
  if longestPossibleJump ≤ 127 ∧ longestPossibleJump ≥ -128 then .int8
  else if longestPossibleJump ≤ 32767 ∧ longestPossibleJump ≥ -32768 then .int16
  else if longestPossibleJump ≤ 2 ^ 23 - 1 ∧ longestPossibleJump ≥ -2 ^ 23 then .int24
  else .int32

/-- The two's complement bytes of a distance. -/
def encodeDistance (size : DFABytecodeJumpSize) (distance : Int) : List Nat :=
  littleEndian size.inBytes (distance % 256 ^ size.inBytes).toNat

/-- The first byte of an instruction with a jump. -/
def opcode (instruction : DFABytecodeInstruction) (size : DFABytecodeJumpSize) : Nat :=
  instruction.code + size.code

/-! ## Actions -/

/-- The bits of `ActionFlagMask`, shifted to the right. -/
def actionFlags (action : Nat) : Nat := action / 2 ^ 32 % 2 ^ 16

def actionLocation (action : Nat) : Nat := action % 2 ^ 32

/-- `action & IfDomainFlag`. -/
def hasIfDomainFlag (action : Nat) : Bool := action / 2 ^ 48 % 2 = 1

/-- The action with the given parts. -/
def makeAction (ifDomain : Bool) (flags location : Nat) : Nat :=
  (if ifDomain then 2 ^ 48 else 0) + flags * 2 ^ 32 + location

theorem makeAction_parts {action : Nat} (h : action < 2 ^ 49) :
    makeAction (hasIfDomainFlag action) (actionFlags action) (actionLocation action) = action := by
  simp only [makeAction, hasIfDomainFlag, actionFlags, actionLocation, decide_eq_true_eq]
  split_ifs <;> omega

/-- The test of `interpretTestFlagsAndAppendAction`: of the load types and of the resource types
in `flagsToCheck`, if there are any, one must be in `flags`. -/
def flagsMatch (flagsToCheck flags : Nat) : Bool :=
  let loadTypeFlags := flagsToCheck &&& 0x0C00
  let resourceTypeFlags := flagsToCheck &&& 0x03FF
  (loadTypeFlags = 0 ∨ loadTypeFlags &&& flags ≠ 0) ∧
    (resourceTypeFlags = 0 ∨ resourceTypeFlags &&& flags ≠ 0)

/-- The action applies to a load with these flags. -/
def actionMatches (flags action : Nat) : Bool :=
  actionFlags action = 0 ∨ flagsMatch (actionFlags action) flags

/-! ## Reading bytecode -/

def getInstruction (bytecode : List Nat) (index : Nat) : Option DFABytecodeInstruction :=
  DFABytecodeInstruction.ofCode (readByte bytecode index % 16)

def getJumpSize (bytecode : List Nat) (index : Nat) : Option DFABytecodeJumpSize :=
  DFABytecodeJumpSize.ofCode (readByte bytecode index / 16 * 16)

def getJumpDistance (bytecode : List Nat) (index : Nat) (size : DFABytecodeJumpSize) : Int :=
  Int.bmod (readLE bytecode size.inBytes index) (256 ^ size.inBytes)

section

variable {bytecode l : List Nat} {index : Nat} {instruction : DFABytecodeInstruction}
  {size : DFABytecodeJumpSize}

theorem getInstruction_of_at (h : Lib.Bytes.At bytecode index (instruction.code :: l)) :
    getInstruction bytecode index = some instruction := by
  rw [getInstruction, Lib.Bytes.readByte_of_at h]
  cases instruction <;> rfl

theorem getInstruction_of_at_opcode
    (h : Lib.Bytes.At bytecode index (opcode instruction size :: l)) :
    getInstruction bytecode index = some instruction := by
  rw [getInstruction, Lib.Bytes.readByte_of_at h]
  cases instruction <;> cases size <;> rfl

theorem getJumpSize_of_at (h : Lib.Bytes.At bytecode index (opcode instruction size :: l)) :
    getJumpSize bytecode index = some size := by
  rw [getJumpSize, Lib.Bytes.readByte_of_at h]
  cases instruction <;> cases size <;> rfl

theorem getJumpDistance_of_at {distance : Int} (hfits : size.Fits distance)
    (h : Lib.Bytes.At bytecode index (encodeDistance size distance)) :
    getJumpDistance bytecode index size = distance := by
  have hpos : (0 : Int) < 256 ^ size.inBytes := by cases size <;> decide
  have hread : ((readLE bytecode size.inBytes index : Nat) : Int) =
      distance % 256 ^ size.inBytes := by
    rw [Lib.Bytes.readLE_of_at h, Int.natCast_mod,
      Int.toNat_of_nonneg (Int.emod_nonneg _ hpos.ne')]
    push_cast
    exact Int.emod_emod_of_dvd _ dvd_rfl
  have hbmod := Int.emod_bmod distance (256 ^ size.inBytes)
  push_cast at hbmod
  rw [getJumpDistance, hread, hbmod]
  obtain ⟨hlow, hhigh⟩ := hfits
  cases size <;> simp only [DFABytecodeJumpSize.inBytes] at * <;>
    apply Int.bmod_eq_of_le <;> omega

end

end Odyssey.ContentExtensions
