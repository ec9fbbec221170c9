import Odyssey.WTF.Text

/-!
# The string hasher

`StringHasher` hashes characters two at a time and keeps an odd one pending. Adding characters one
by one, in pairs or as a whole string gives the same hash.
-/
namespace Odyssey.WTF

/-- `m_hash`, and `m_pendingCharacter` where `m_hasPendingCharacter` is set. -/
structure StringHasher where
  hash : UInt32
  pendingCharacter : Option UInt16
  deriving DecidableEq

namespace StringHasher

def stringHashingStartValue : UInt32 := 0x9E3779B9

def start : StringHasher := ⟨stringHashingStartValue, none⟩

/-- The hash after two more characters. -/
def mix (hash : UInt32) (a b : UInt16) : UInt32 :=
  let hash := hash + a.toUInt32
  let hash := (hash <<< 16) ^^^ ((b.toUInt32 <<< 11) ^^^ hash)
  hash + (hash >>> 11)

/-- `addCharactersAssumingAligned` of two characters. -/
def addPairAssumingAligned (h : StringHasher) (a b : UInt16) : StringHasher :=
  { h with hash := mix h.hash a b }

def addCharacter (h : StringHasher) (character : UInt16) : StringHasher :=
  match h.pendingCharacter with
  | some pending => ⟨mix h.hash pending character, none⟩
  | none => { h with pendingCharacter := some character }

/-- `addCharacters` of two characters. -/
def addCharacters (h : StringHasher) (a b : UInt16) : StringHasher :=
  match h.pendingCharacter with
  | some pending => ⟨mix h.hash pending a, some b⟩
  | none => h.addPairAssumingAligned a b

/-- `addCharactersAssumingAligned` of a string. -/
def addCharactersAssumingAligned (h : StringHasher) : Text → StringHasher
  | a :: b :: data => (h.addPairAssumingAligned a b).addCharactersAssumingAligned data
  | [a] => h.addCharacter a
  | [] => h

def avalancheBits (h : StringHasher) : UInt32 :=
  let result : UInt32 := match h.pendingCharacter with
    | some pending =>
      let result := h.hash + pending.toUInt32
      let result := result ^^^ (result <<< 11)
      result + (result >>> 17)
    | none => h.hash
  let result := result ^^^ (result <<< 3)
  let result := result + (result >>> 5)
  let result := result ^^^ (result <<< 2)
  let result := result + (result >>> 15)
  result ^^^ (result <<< 10)

def hashWithTop8BitsMasked (h : StringHasher) : UInt32 :=
  let result := h.avalancheBits &&& (((1 : UInt32) <<< 24) - 1)
  if result = 0 then (0x80000000 : UInt32) >>> 8 else result

def computeHashAndMaskTop8Bits (data : Text) : UInt32 :=
  (start.addCharactersAssumingAligned data).hashWithTop8BitsMasked

theorem addCharacters_eq (h : StringHasher) (a b : UInt16) :
    h.addCharacters a b = (h.addCharacter a).addCharacter b := by
  obtain ⟨hash, _ | pending⟩ := h <;> rfl

theorem addCharactersAssumingAligned_eq (h : StringHasher) (data : Text)
    (haligned : h.pendingCharacter = none) :
    h.addCharactersAssumingAligned data = data.foldl addCharacter h := by
  fun_induction addCharactersAssumingAligned h data with
  | case1 h a b data ih =>
    obtain ⟨hash, _ | pending⟩ := h
    · exact ih rfl
    · cases haligned
  | case2 h a => rfl
  | case3 h => rfl

theorem computeHashAndMaskTop8Bits_eq (data : Text) :
    computeHashAndMaskTop8Bits data = (data.foldl addCharacter start).hashWithTop8BitsMasked := by
  rw [computeHashAndMaskTop8Bits, addCharactersAssumingAligned_eq start data rfl]

end StringHasher

end Odyssey.WTF
