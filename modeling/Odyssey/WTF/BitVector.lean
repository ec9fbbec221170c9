import Mathlib.Algebra.GroupWithZero.Nat
import Odyssey.Lib.WordBits

/-!
# Bit vectors

A bit vector is one word with a tag in its highest bit, or a pointer to any number of words.
Pointers and sizes have 64 bits. Loops over words have an index of type `unsigned`, of 32 bits.
-/
namespace Odyssey.WTF

open Lib

abbrev Word := BitVec 64

def bitsInPointer : Nat := 64

def maxInlineBits : Nat := bitsInPointer - 1

/-- The highest bit of the word. -/
def inlineTag : Word := 1#64 <<< maxInlineBits

def makeInlineBits (bits : Word) : Word := bits ||| inlineTag

def cleanseInlineBits (bits : Word) : Word := bits &&& ~~~inlineTag

/-- The conversion to `unsigned`. -/
def toUnsigned (n : Nat) : Nat := n % 2 ^ 32

structure OutOfLineBits where
  bits : List Word
  nonempty : 0 < bits.length

namespace OutOfLineBits

/-- `create` rounds the number of bits up to whole words. -/
def numBits (b : OutOfLineBits) : Nat := bitsInPointer * b.bits.length

def numWords (b : OutOfLineBits) : Nat := (b.numBits + bitsInPointer - 1) / bitsInPointer

end OutOfLineBits

/-- `isInline()` is the constructor. -/
inductive BitVector
  | inlineBits (m_bitsOrPointer : Word) (tagged : m_bitsOrPointer.getLsbD maxInlineBits = true)
  | outOfLine (b : OutOfLineBits)

namespace BitVector

def isInline : BitVector → Bool
  | inlineBits _ _ => true
  | outOfLine _ => false

def size : BitVector → Nat
  | inlineBits _ _ => maxInlineBits
  | outOfLine b => b.numBits

def bits : BitVector → List Word
  | inlineBits m_bitsOrPointer _ => [m_bitsOrPointer]
  | outOfLine b => b.bits

theorem tagged_or (bits : Word) : (bits ||| inlineTag).getLsbD maxInlineBits = true := by
  rw [BitVec.getLsbD_or, show inlineTag.getLsbD maxInlineBits = true from rfl, Bool.or_true]

/-- The inline vector with these bits. -/
def ofWord (bits : Word) : BitVector := inlineBits (makeInlineBits bits) (tagged_or bits)

def quickGet (v : BitVector) (bit : Nat) : Bool :=
  (WordBits.word v.bits (bit / bitsInPointer) &&&
    (1#64 <<< (bit &&& (bitsInPointer - 1)))) != 0

def get (v : BitVector) (bit : Nat) : Bool := if bit ≥ v.size then false else v.quickGet bit

/-! ## Sizes -/

/-- The words that `create` allocates. -/
def wordsFor (numBits : Nat) : Nat := (numBits + bitsInPointer - 1) / bitsInPointer

theorem wordsFor_pos {numBits : Nat} (h : maxInlineBits < numBits) : 0 < wordsFor numBits := by
  unfold maxInlineBits bitsInPointer at h
  unfold wordsFor bitsInPointer
  omega

theorem maxInlineBits_le_size (v : BitVector) : maxInlineBits ≤ v.size := by
  cases v with
  | inlineBits => exact Nat.le_refl _
  | outOfLine b =>
    have hpos := b.nonempty
    simp only [size, maxInlineBits, OutOfLineBits.numBits, bitsInPointer]
    omega

/-- The words after `resizeOutOfLine`. -/
def resizedWords (v : BitVector) (numBits : Nat) : List Word :=
  let newNumWords := wordsFor numBits
  match v with
  | inlineBits m_bitsOrPointer _ =>
    cleanseInlineBits m_bitsOrPointer :: List.replicate (newNumWords - 1) 0
  | outOfLine b =>
    if numBits > v.size then b.bits ++ List.replicate (newNumWords - b.bits.length) 0
    else b.bits.take newNumWords

theorem resizedWords_pos (v : BitVector) {numBits : Nat} (h : maxInlineBits < numBits) :
    0 < (v.resizedWords numBits).length := by
  have hpos := wordsFor_pos h
  unfold resizedWords
  cases v with
  | inlineBits => simp
  | outOfLine b =>
    have hb := b.nonempty
    dsimp only
    split_ifs
    · rw [List.length_append]
      omega
    · rw [List.length_take]
      omega

/-- The hypothesis is the assertion of the source. -/
def resizeOutOfLine (v : BitVector) (numBits : Nat) (h : maxInlineBits < numBits) : BitVector :=
  outOfLine ⟨v.resizedWords numBits, v.resizedWords_pos h⟩

def ensureSize (v : BitVector) (numBits : Nat) : BitVector :=
  if h : numBits ≤ v.size then v
  else v.resizeOutOfLine numBits (Nat.lt_of_le_of_lt v.maxInlineBits_le_size (Nat.lt_of_not_le h))

/-! ## Set operations

A result of `none` is a read of a word that does not exist or a loop that does not end. -/

/-- Out-of-line bits with these words. -/
def ofWords (words : List Word) : Option BitVector :=
  if h : 0 < words.length then some (outOfLine ⟨words, h⟩) else none

/-- Change the first word of out-of-line bits. -/
def withFirstWord (b : OutOfLineBits) (f : Word → Word) : Option BitVector :=
  ofWords (b.bits.set 0 (f (WordBits.word b.bits 0)))

def mergeSlow (v other : BitVector) : Option BitVector :=
  match v, other with
  | outOfLine a, inlineBits otherBits _ => withFirstWord a (· ||| cleanseInlineBits otherBits)
  | v, other =>
    match v.ensureSize other.size, other with
    | outOfLine a, outOfLine b =>
      (WordBits.combineLoop (· ||| ·) b.bits (toUnsigned a.numWords) a.bits).bind ofWords
    | _, _ => none

theorem tagged_merge {x y : Word} (hx : x.getLsbD maxInlineBits = true) :
    (x ||| y).getLsbD maxInlineBits = true := by
  rw [BitVec.getLsbD_or, hx, Bool.true_or]

def merge (v other : BitVector) : Option BitVector :=
  match v, other with
  | inlineBits m_bitsOrPointer tagged, inlineBits otherBits _ =>
    some (inlineBits (m_bitsOrPointer ||| otherBits) (tagged_merge tagged))
  | v, other => mergeSlow v other

def filterSlow (v other : BitVector) : Option BitVector :=
  match v, other with
  | outOfLine a, inlineBits otherBits _ => withFirstWord a (· &&& cleanseInlineBits otherBits)
  | inlineBits m_bitsOrPointer _, other =>
    some (ofWord (m_bitsOrPointer &&& WordBits.word other.bits 0))
  | outOfLine a, outOfLine b => do
    let words ←
      WordBits.combineLoop (· &&& ·) b.bits (toUnsigned (min a.numWords b.numWords)) a.bits
    let words ← WordBits.clearLoop (2 ^ 32) a.numWords (toUnsigned b.numWords) words
    ofWords words

theorem tagged_filter {x y : Word} (hx : x.getLsbD maxInlineBits = true)
    (hy : y.getLsbD maxInlineBits = true) : (x &&& y).getLsbD maxInlineBits = true := by
  rw [BitVec.getLsbD_and, hx, hy, Bool.and_true]

def filter (v other : BitVector) : Option BitVector :=
  match v, other with
  | inlineBits m_bitsOrPointer tagged, inlineBits otherBits otherTagged =>
    some (inlineBits (m_bitsOrPointer &&& otherBits) (tagged_filter tagged otherTagged))
  | v, other => filterSlow v other

def excludeSlow (v other : BitVector) : Option BitVector :=
  match v, other with
  | outOfLine a, inlineBits otherBits _ =>
    withFirstWord a (· &&& ~~~cleanseInlineBits otherBits)
  | inlineBits m_bitsOrPointer _, other =>
    some (ofWord (m_bitsOrPointer &&& ~~~WordBits.word other.bits 0))
  | outOfLine a, outOfLine b =>
    (WordBits.combineLoop (fun x y => x &&& ~~~y) b.bits
      (toUnsigned (min a.numWords b.numWords)) a.bits).bind ofWords

def exclude (v other : BitVector) : Option BitVector :=
  match v, other with
  | inlineBits m_bitsOrPointer _, inlineBits otherBits _ =>
    some (ofWord (m_bitsOrPointer &&& ~~~otherBits))
  | v, other => excludeSlow v other

/-! ## Comparing -/

/-- `get` on all bits below the larger size, from the last one on. -/
def equalsSlowCaseSimple (v other : BitVector) : Bool :=
  (List.range (toUnsigned (max v.size other.size))).reverse.all
    fun i => v.get i == other.get i

/-- The words that only the longer one has are zero, and the others are equal. -/
def equalsSlowCaseFast (v other : BitVector) : Bool :=
  match v, other with
  | outOfLine a, outOfLine b =>
    let minNumWords := min a.numWords b.numWords
    let maxNumWords := max a.numWords b.numWords
    let longerBits := if a.numWords < b.numWords then b.bits else a.bits
    (List.range' minNumWords (maxNumWords - minNumWords)).all
        (fun i => WordBits.word longerBits i == 0) &&
      (List.range minNumWords).reverse.all
        fun i => WordBits.word a.bits i == WordBits.word b.bits i
  | v, other => equalsSlowCaseSimple v other

/-- `operator==` -/
def equals (v other : BitVector) : Bool :=
  match v, other with
  | inlineBits m_bitsOrPointer _, inlineBits otherBits _ => m_bitsOrPointer == otherBits
  | v, other => equalsSlowCaseFast v other

/-- The 64 bit mix function of `HashFunctions.h`. -/
def intHash (key : Word) : BitVec 32 :=
  let key := key + ~~~(key <<< 32)
  let key := key ^^^ (key >>> 22)
  let key := key + ~~~(key <<< 13)
  let key := key ^^^ (key >>> 8)
  let key := key + (key <<< 3)
  let key := key ^^^ (key >>> 15)
  let key := key + ~~~(key <<< 27)
  let key := key ^^^ (key >>> 31)
  key.setWidth 32

def hashSlowCase (b : OutOfLineBits) : Word :=
  (List.range (toUnsigned b.numWords)).reverse.foldl
    (fun result i => result ^^^ WordBits.word b.bits i) 0

def hash : BitVector → BitVec 32
  | inlineBits m_bitsOrPointer _ => intHash (cleanseInlineBits m_bitsOrPointer)
  | outOfLine b => intHash (hashSlowCase b)

/-! ## Finding bits -/

/-- The loop of `findBitInWord`: whether the bit is found, and `index`. -/
def scanWord (endIndex : Nat) (value : Bool) : Nat → Word → Nat → Bool × Nat
  | 0, _, _ => (false, endIndex)
  | turns + 1, word, index =>
    if index < endIndex then
      if word &&& 1 = (BitVec.ofBool value).setWidth 64 then (true, index)
      else scanWord endIndex value turns (word >>> 1) (index + 1)
    else (false, endIndex)

/-- A result of `none` is a shift by the width of the word or more. -/
def findBitInWord (word : Word) (index endIndex : Nat) (value : Bool) : Option (Bool × Nat) :=
  if index < bitsInPointer then
    some (scanWord endIndex value (endIndex - index) (word >>> index) index)
  else none

def skipValue (value : Bool) : Word := -((BitVec.ofBool value).setWidth 64 ^^^ 1)

/-- The loop of `findBitFast` over the words. -/
def findWord (b : OutOfLineBits) (value : Bool) : Nat → Nat → Nat → Option Nat
  | 0, _, _ => some b.numBits
  | turns + 1, wordIndex, startIndexInWord =>
    if wordIndex < b.numWords then
      let word := WordBits.word b.bits wordIndex
      if word ≠ skipValue value then
        match findBitInWord word startIndexInWord bitsInPointer value with
        | none => none
        | some (true, index) => some (wordIndex * bitsInPointer + index)
        | some (false, _) => findWord b value turns (wordIndex + 1) 0
      else findWord b value turns (wordIndex + 1) 0
    else some b.numBits

def findBitFast (v : BitVector) (startIndex : Nat) (value : Bool) : Option Nat :=
  match v with
  | inlineBits m_bitsOrPointer _ =>
    (findBitInWord m_bitsOrPointer startIndex maxInlineBits value).map Prod.snd
  | outOfLine b =>
    let wordIndex := startIndex / bitsInPointer
    findWord b value (b.numWords - wordIndex) wordIndex (startIndex - wordIndex * bitsInPointer)

/-- The loop of `findBitSimple`. -/
def scanSimple (v : BitVector) (value : Bool) : Nat → Nat → Nat
  | 0, _ => v.size
  | turns + 1, index =>
    if index < v.size then
      if v.get index == value then index else scanSimple v value turns (index + 1)
    else v.size

def findBitSimple (v : BitVector) (index : Nat) (value : Bool) : Nat :=
  v.scanSimple value (v.size - index) index

end BitVector

end Odyssey.WTF
