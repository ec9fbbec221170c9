import Mathlib.Tactic.IntervalCases
import Odyssey.Lib.Transcode
import Odyssey.WTF.Text

/-!
# Decoding UTF-8

`String::fromUTF8` over `convertUTF8ToUTF16`. The decoder reads a sequence length off the first
byte, checks the sequence with `isLegalUTF8` and writes one or two code units. It reads the UTF-8
encodings of Unicode scalar values, for which `Char` stands here, and besides them the sequences
that begin with `0xED` or `0xF4` and whose second byte is below `0x80`: the check has no lower bound
for those two.
-/
namespace Odyssey.WTF.UTF8

inductive ConversionResult where
  | conversionOK
  | sourceExhausted
  | targetExhausted
  | sourceIllegal
deriving DecidableEq, Repr

def isASCII (b : UInt8) : Bool := b &&& 0x80 == 0

def inlineUTF8SequenceLengthNonASCII (b0 : UInt8) : Nat :=
  if b0 &&& 0xC0 != 0xC0 then 0
  else if b0 &&& 0xE0 == 0xC0 then 2
  else if b0 &&& 0xF0 == 0xE0 then 3
  else if b0 &&& 0xF8 == 0xF0 then 4
  else 0

def inlineUTF8SequenceLength (b0 : UInt8) : Nat :=
  if isASCII b0 then 1 else inlineUTF8SequenceLengthNonASCII b0

/-- The check of a third or fourth byte in `isLegalUTF8`. -/
def isTrailing (a : UInt8) : Bool := !(a < 0x80 || 0xBF < a)

/-- The check of the second byte in `isLegalUTF8`, which depends on the first. -/
def isLegalSecond (b0 a : UInt8) : Bool :=
  !(0xBF < a) &&
    (if b0 == 0xE0 then !(a < 0xA0)
    else if b0 == 0xED then !(0x9F < a)
    else if b0 == 0xF0 then !(a < 0x90)
    else if b0 == 0xF4 then !(0x8F < a)
    else !(a < 0x80))

/-- The check of the first byte in `isLegalUTF8`. -/
def isLegalFirst (b0 : UInt8) : Bool := !(0x80 ≤ b0 && b0 < 0xC2) && !(0xF4 < b0)

def isLegalUTF8 (source : List UInt8) (length : Nat) : Bool :=
  let byte i := source.getD i 0
  match length with
  | 4 => isTrailing (byte 3) && isTrailing (byte 2) && isLegalSecond (byte 0) (byte 1) &&
      isLegalFirst (byte 0)
  | 3 => isTrailing (byte 2) && isLegalSecond (byte 0) (byte 1) && isLegalFirst (byte 0)
  | 2 => isLegalSecond (byte 0) (byte 1) && isLegalFirst (byte 0)
  | 1 => isLegalFirst (byte 0)
  | _ => false

def offsetsFromUTF8 : List Nat :=
  [0x00000000, 0x00003080, 0x000E2080, 0x03C82080, 0xFA082080, 0x82082080]

/-- The code point as an unsigned 32-bit number. -/
def readUTF8Sequence (source : List UInt8) (length : Nat) : Nat :=
  ((source.take length).foldl (fun character b => character * 64 + b.toNat) 0 +
    (2 ^ 32 - offsetsFromUTF8.getD (length - 1) 0)) % 2 ^ 32

def replacementCharacter : UInt16 := 0xFFFD

def isBMP (character : Nat) : Bool := character ≤ 0xFFFF

def isSurrogate (character : Nat) : Bool := 0xD800 ≤ character && character ≤ 0xDFFF

def isSupplementary (character : Nat) : Bool := 0x10000 ≤ character && character ≤ 0x10FFFF

def u16Lead (character : Nat) : UInt16 := (character / 1024 + 0xD7C0).toUInt16

def u16Trail (character : Nat) : UInt16 := (character % 1024 + 0xDC00).toUInt16

/-- One turn of the loop of `convertUTF8ToUTF16`: what is left of the source, and the target. -/
def convertNext (strict : Bool) (targetEnd : Nat) (source : List UInt8) (target : Text) :
    Except ConversionResult (List UInt8 × Text) :=
  let length := inlineUTF8SequenceLength (source.headD 0)
  if source.length < length then .error .sourceExhausted
  else if !isLegalUTF8 source length then .error .sourceIllegal
  else
    let character := readUTF8Sequence source length
    let rest := source.drop length
    if targetEnd ≤ target.length then .error .targetExhausted
    else if isBMP character then
      if isSurrogate character then
        if strict then .error .sourceIllegal else .ok (rest, target ++ [replacementCharacter])
      else .ok (rest, target ++ [character.toUInt16])
    else if isSupplementary character then
      if targetEnd ≤ target.length + 1 then .error .targetExhausted
      else .ok (rest, target ++ [u16Lead character, u16Trail character])
    else if strict then .error .sourceIllegal
    else .ok (rest, target ++ [replacementCharacter])

/-- `convertUTF8ToUTF16`: the result, what is left of the source, and what was written. Every turn
consumes a byte, so that as many turns as there are bytes are enough. -/
def convertUTF8ToUTF16 (source : List UInt8) (targetEnd : Nat) (strict : Bool) :
    ConversionResult × List UInt8 × Text :=
  Lib.turnLoop (convertNext strict targetEnd) .conversionOK .sourceExhausted source.length source []

def charactersAreAllASCII (source : List UInt8) : Bool := source.all isASCII

/-- `String::fromUTF8`; the null string is `none`. -/
def fromUTF8 (source : List UInt8) : Option Text :=
  if source.isEmpty then some []
  else if charactersAreAllASCII source then some (source.map (·.toUInt16))
  else
    match convertUTF8ToUTF16 source source.length true with
    | (.conversionOK, _, target) => some target
    | _ => none

/-! ## Scalar values -/

/-- The UTF-16 code units of a code point. -/
def unitsOf (n : Nat) : Text := if n < 0x10000 then [n.toUInt16] else [u16Lead n, u16Trail n]

def utf16EncodeChar (c : Char) : Text := unitsOf c.toNat

/-- The code point of a sequence of three or four bytes that `isLegalUTF8` lets through although its
second byte is no trailing byte. -/
inductive Lax : List UInt8 → Nat → Prop
  | three (a b : UInt8) : a.toNat < 0x80 → isTrailing b →
      Lax [0xED, a, b] (0xB000 + a.toNat * 64 + (b.toNat - 0x80))
  | four (a b c : UInt8) : a.toNat < 0x80 → isTrailing b → isTrailing c →
      Lax [0xF4, a, b, c]
        (0x80000 + a.toNat * 4096 + (b.toNat - 0x80) * 64 + (c.toNat - 0x80))

/-- What one turn of the decoder reads. -/
inductive ReadsOne : List UInt8 → Text → Prop
  | char (c : Char) : ReadsOne (String.utf8EncodeChar c) (utf16EncodeChar c)
  | lax (l : List UInt8) (n : Nat) : Lax l n → ReadsOne l (unitsOf n)

/-- What the decoder reads. -/
inductive Reads : List UInt8 → Text → Prop
  | nil : Reads [] []
  | cons (l : List UInt8) (u : Text) (source : List UInt8) (units : Text) :
      ReadsOne l u → Reads source units → Reads (l ++ source) (u ++ units)

/-! ## Bytes as numbers -/

theorem inlineUTF8SequenceLength_eq (b : UInt8) :
    inlineUTF8SequenceLength b =
      if b.toNat < 0x80 then 1 else if b.toNat < 0xC0 then 0 else if b.toNat < 0xE0 then 2
      else if b.toNat < 0xF0 then 3 else if b.toNat < 0xF8 then 4 else 0 := by
  have every : ∀ n < 256, inlineUTF8SequenceLength (UInt8.ofNat n) =
      if n < 0x80 then 1 else if n < 0xC0 then 0 else if n < 0xE0 then 2
      else if n < 0xF0 then 3 else if n < 0xF8 then 4 else 0 := by decide +kernel
  simpa using every b.toNat b.toNat_lt

theorem isASCII_iff (b : UInt8) : isASCII b = true ↔ b.toNat < 0x80 := by
  have every : ∀ n < 256, isASCII (UInt8.ofNat n) = true ↔ n < 0x80 := by decide +kernel
  simpa using every b.toNat b.toNat_lt

theorem isTrailing_iff (a : UInt8) : isTrailing a = true ↔ 0x80 ≤ a.toNat ∧ a.toNat ≤ 0xBF := by
  simp [isTrailing, UInt8.lt_iff_toNat_lt]

theorem isLegalFirst_iff (b : UInt8) :
    isLegalFirst b = true ↔ (b.toNat < 0x80 ∨ 0xC2 ≤ b.toNat) ∧ b.toNat ≤ 0xF4 := by
  simp [isLegalFirst, UInt8.lt_iff_toNat_lt, UInt8.le_iff_toNat_le]

theorem isLegalSecond_iff (b a : UInt8) :
    isLegalSecond b a = true ↔ a.toNat ≤ 0xBF ∧
      (b.toNat = 0xE0 → 0xA0 ≤ a.toNat) ∧ (b.toNat = 0xED → a.toNat ≤ 0x9F) ∧
      (b.toNat = 0xF0 → 0x90 ≤ a.toNat) ∧ (b.toNat = 0xF4 → a.toNat ≤ 0x8F) ∧
      (b.toNat ≠ 0xED → b.toNat ≠ 0xF4 → 0x80 ≤ a.toNat) := by
  simp only [isLegalSecond, beq_iff_eq, ← UInt8.toNat_inj, UInt8.lt_iff_toNat_lt]
  split_ifs <;> simp_all <;> omega

/-! ## One sequence -/

/-- The bytes are one sequence that the decoder accepts, with its code point. -/
structure Sequence (l : List UInt8) (n : Nat) : Prop where
  length : inlineUTF8SequenceLength (l.headD 0) = l.length
  legal : isLegalUTF8 l l.length = true
  read : readUTF8Sequence l l.length = n

variable {l : List UInt8} {n : Nat} {b : UInt8}

theorem char_of_toNat (h : n.isValidChar) : ∃ c : Char, c.toNat = n :=
  ⟨Char.ofNatAux n h, rfl⟩

theorem eq_ofNat (h : b.toNat = n) : b = UInt8.ofNat n := by
  rw [← h, UInt8.ofNat_toNat]

theorem sequence_one {a : UInt8} (h : Sequence [a] n) :
    ∃ c : Char, [a] = String.utf8EncodeChar c ∧ n = c.toNat := by
  have hl := h.length
  have hr := h.read
  have ha := a.toNat_lt
  simp only [List.headD_cons, inlineUTF8SequenceLength_eq, List.length_singleton] at hl
  simp only [readUTF8Sequence, offsetsFromUTF8, List.length_singleton, List.take_succ_cons,
    List.take_zero, List.foldl_cons, List.foldl_nil, Nat.sub_self, List.getD_cons_zero] at hr
  have small : a.toNat < 0x80 := by split_ifs at hl <;> omega
  obtain ⟨c, hc⟩ := char_of_toNat (n := a.toNat) (by simp [Nat.isValidChar]; omega)
  refine ⟨c, ?_, by omega⟩
  unfold Char.toNat at hc
  simp only [String.utf8EncodeChar, hc, if_pos (show a.toNat ≤ 127 by omega), UInt8.ofNat_toNat]

theorem sequence_two {a : UInt8} (h : Sequence [a, b] n) :
    ∃ c : Char, [a, b] = String.utf8EncodeChar c ∧ n = c.toNat := by
  have hl := h.length
  have hr := h.read
  have hg := h.legal
  simp only [List.headD_cons, inlineUTF8SequenceLength_eq, List.length_cons, List.length_nil] at hl
  simp only [isLegalUTF8, List.length_cons, List.length_nil, List.getD_cons_zero,
    List.getD_cons_succ, Bool.and_eq_true, isLegalFirst_iff, isLegalSecond_iff] at hg
  simp only [readUTF8Sequence, offsetsFromUTF8, List.length_cons, List.length_nil,
    List.take_succ_cons, List.take_zero, List.foldl_cons, List.foldl_nil, List.getD_cons_zero,
    List.getD_cons_succ, Nat.add_sub_cancel] at hr
  have ha : 0xC2 ≤ a.toNat ∧ a.toNat < 0xE0 := by split_ifs at hl <;> omega
  have value : n = (a.toNat - 0xC0) * 64 + (b.toNat - 0x80) := by omega
  obtain ⟨c, hc⟩ := char_of_toNat (n := n) (by simp only [Nat.isValidChar]; omega)
  refine ⟨c, ?_, hc.symm⟩
  unfold Char.toNat at hc
  simp only [String.utf8EncodeChar, hc, if_neg (show ¬n ≤ 127 by omega),
    if_pos (show n ≤ 2047 by omega)]
  rw [← eq_ofNat (b := a) (by omega), ← eq_ofNat (b := b) (by omega)]

theorem sequence_three {a d : UInt8} (h : Sequence [a, b, d] n) :
    (∃ c : Char, [a, b, d] = String.utf8EncodeChar c ∧ n = c.toNat) ∨ Lax [a, b, d] n := by
  have hl := h.length
  have hr := h.read
  have hg := h.legal
  simp only [List.headD_cons, inlineUTF8SequenceLength_eq, List.length_cons, List.length_nil] at hl
  simp only [isLegalUTF8, List.length_cons, List.length_nil, List.getD_cons_zero,
    List.getD_cons_succ, Bool.and_eq_true, isLegalSecond_iff, isTrailing_iff] at hg
  simp only [readUTF8Sequence, offsetsFromUTF8, List.length_cons, List.length_nil,
    List.take_succ_cons, List.take_zero, List.foldl_cons, List.foldl_nil, List.getD_cons_zero,
    List.getD_cons_succ, Nat.add_sub_cancel] at hr
  have ha : 0xE0 ≤ a.toNat ∧ a.toNat < 0xF0 := by split_ifs at hl <;> omega
  obtain ⟨⟨trailing, second⟩, -⟩ := hg
  by_cases below : b.toNat < 0x80
  · have first : a.toNat = 0xED := by omega
    have value : n = 0xB000 + b.toNat * 64 + (d.toNat - 0x80) := by omega
    rw [eq_ofNat first, value]
    exact .inr (.three b d below ((isTrailing_iff d).mpr trailing))
  · left
    have value : n = (a.toNat - 0xE0) * 4096 + (b.toNat - 0x80) * 64 + (d.toNat - 0x80) := by omega
    obtain ⟨c, hc⟩ := char_of_toNat (n := n) (by simp only [Nat.isValidChar]; omega)
    refine ⟨c, ?_, hc.symm⟩
    unfold Char.toNat at hc
    simp only [String.utf8EncodeChar, hc, if_neg (show ¬n ≤ 127 by omega),
      if_neg (show ¬n ≤ 2047 by omega), if_pos (show n ≤ 65535 by omega)]
    rw [← eq_ofNat (b := a) (by omega), ← eq_ofNat (b := b) (by omega),
      ← eq_ofNat (b := d) (by omega)]

theorem sequence_four {a d e : UInt8} (h : Sequence [a, b, d, e] n) :
    (∃ c : Char, [a, b, d, e] = String.utf8EncodeChar c ∧ n = c.toNat) ∨ Lax [a, b, d, e] n := by
  have hl := h.length
  have hr := h.read
  have hg := h.legal
  simp only [List.headD_cons, inlineUTF8SequenceLength_eq, List.length_cons, List.length_nil] at hl
  simp only [isLegalUTF8, List.length_cons, List.length_nil, List.getD_cons_zero,
    List.getD_cons_succ, Bool.and_eq_true, isLegalFirst_iff, isLegalSecond_iff,
    isTrailing_iff] at hg
  simp only [readUTF8Sequence, offsetsFromUTF8, List.length_cons, List.length_nil,
    List.take_succ_cons, List.take_zero, List.foldl_cons, List.foldl_nil, List.getD_cons_zero,
    List.getD_cons_succ, Nat.add_sub_cancel] at hr
  obtain ⟨⟨⟨fourth, third⟩, second⟩, first⟩ := hg
  have ha : 0xF0 ≤ a.toNat := by split_ifs at hl <;> omega
  by_cases below : b.toNat < 0x80
  · have first : a.toNat = 0xF4 := by omega
    have value : n = 0x80000 + b.toNat * 4096 + (d.toNat - 0x80) * 64 + (e.toNat - 0x80) := by
      omega
    rw [eq_ofNat first, value]
    exact .inr (.four b d e below ((isTrailing_iff d).mpr third) ((isTrailing_iff e).mpr fourth))
  · left
    have value : n = (a.toNat - 0xF0) * 262144 + (b.toNat - 0x80) * 4096 +
        (d.toNat - 0x80) * 64 + (e.toNat - 0x80) := by omega
    obtain ⟨c, hc⟩ := char_of_toNat (n := n) (by simp only [Nat.isValidChar]; omega)
    refine ⟨c, ?_, hc.symm⟩
    unfold Char.toNat at hc
    simp only [String.utf8EncodeChar, hc, if_neg (show ¬n ≤ 127 by omega),
      if_neg (show ¬n ≤ 2047 by omega), if_neg (show ¬n ≤ 65535 by omega)]
    rw [← eq_ofNat (b := a) (by omega), ← eq_ofNat (b := b) (by omega),
      ← eq_ofNat (b := d) (by omega), ← eq_ofNat (b := e) (by omega)]

theorem sequence_of_lax (h : Lax l n) : Sequence l n := by
  cases h with
  | three a b ha hb =>
    rw [isTrailing_iff] at hb
    refine ⟨by simp [inlineUTF8SequenceLength_eq], ?_, ?_⟩
    · simp [isLegalUTF8, isLegalFirst_iff, isLegalSecond_iff, isTrailing_iff]
      omega
    · simp [readUTF8Sequence, offsetsFromUTF8]
      omega
  | four a b c ha hb hc =>
    rw [isTrailing_iff] at hb hc
    refine ⟨by simp [inlineUTF8SequenceLength_eq], ?_, ?_⟩
    · simp [isLegalUTF8, isLegalFirst_iff, isLegalSecond_iff, isTrailing_iff]
      omega
    · simp [readUTF8Sequence, offsetsFromUTF8]
      omega

theorem sequence_of_char (c : Char) : Sequence (String.utf8EncodeChar c) c.toNat := by
  have valid : c.val.toNat.isValidChar := c.valid
  simp only [Nat.isValidChar] at valid
  unfold String.utf8EncodeChar Char.toNat
  generalize c.val.toNat = v at valid
  dsimp only
  split_ifs with one two three
  · refine ⟨?_, ?_, ?_⟩
    · simp [inlineUTF8SequenceLength_eq]
      omega
    · simp [isLegalUTF8, isLegalFirst_iff]
      omega
    · simp [readUTF8Sequence, offsetsFromUTF8]
      omega
  all_goals
    refine ⟨?_, ?_, ?_⟩
    · simp only [List.headD_cons, inlineUTF8SequenceLength_eq, UInt8.toNat_ofNat']
      split_ifs <;> first | rfl | omega
    · simp [isLegalUTF8, isLegalFirst_iff, isLegalSecond_iff, isTrailing_iff]
      omega
    · simp [readUTF8Sequence, offsetsFromUTF8]
      omega

theorem Sequence.cases (h : Sequence l n) :
    (∃ c : Char, l = String.utf8EncodeChar c ∧ n = c.toNat) ∨ Lax l n := by
  rcases l with _ | ⟨a, _ | ⟨b, _ | ⟨d, _ | ⟨e, _ | ⟨f, l⟩⟩⟩⟩⟩
  · exact absurd h.legal (by simp [isLegalUTF8])
  · exact .inl (sequence_one h)
  · exact .inl (sequence_two h)
  · exact sequence_three h
  · exact sequence_four h
  · exact absurd h.legal (by simp [isLegalUTF8])

theorem Sequence.ne_nil (h : Sequence l n) : l ≠ [] := by
  rintro rfl
  exact absurd h.legal (by simp [isLegalUTF8])

/-- A sequence is recognised by its bytes, whatever follows. -/
theorem Sequence.append_inj {l' r r' : List UInt8} {n' : Nat} (h : Sequence l n)
    (h' : Sequence l' n') (e : l ++ r = l' ++ r') : l = l' ∧ r = r' := by
  have hlength : l.length = l'.length := by
    rw [← h.length, ← h'.length]
    obtain ⟨a, l, rfl⟩ := List.exists_cons_of_ne_nil h.ne_nil
    obtain ⟨b, l', rfl⟩ := List.exists_cons_of_ne_nil h'.ne_nil
    rw [List.cons_append, List.cons_append, List.cons.injEq] at e
    rw [List.headD_cons, List.headD_cons, e.1]
  exact List.append_inj e hlength

theorem Sequence.isValidChar (h : Sequence l n) : n.isValidChar := by
  rcases h.cases with ⟨c, -, rfl⟩ | lax
  · exact c.valid
  · cases lax with
    | three a b ha hb =>
      rw [isTrailing_iff] at hb
      simp only [Nat.isValidChar]
      omega
    | four a b c ha hb hc =>
      rw [isTrailing_iff] at hb hc
      simp only [Nat.isValidChar]
      omega

theorem readsOne_iff {u : Text} :
    ReadsOne l u ↔ ∃ n, Sequence l n ∧ u = unitsOf n := by
  constructor
  · rintro (c | ⟨_, n, lax⟩)
    · exact ⟨c.toNat, sequence_of_char c, rfl⟩
    · exact ⟨n, sequence_of_lax lax, rfl⟩
  · rintro ⟨n, h, rfl⟩
    rcases h.cases with ⟨c, rfl, rfl⟩ | lax
    · exact .char c
    · exact .lax l n lax

theorem isLegalUTF8_append (l rest : List UInt8) :
    isLegalUTF8 (l ++ rest) l.length = isLegalUTF8 l l.length := by
  rcases l with _ | ⟨a, _ | ⟨b, _ | ⟨d, _ | ⟨e, _ | ⟨f, l⟩⟩⟩⟩⟩ <;> simp [isLegalUTF8]

theorem sequence_take {source : List UInt8} {length : Nat}
    (hlength : inlineUTF8SequenceLength (source.headD 0) = length) (long : length ≤ source.length)
    (legal : isLegalUTF8 source length = true) :
    Sequence (source.take length) (readUTF8Sequence source length) := by
  have taken : (source.take length).length = length := List.length_take_of_le long
  have positive : length ≠ 0 := by
    rintro rfl
    simp [isLegalUTF8] at legal
  refine ⟨?_, ?_, ?_⟩
  · rw [taken, ← hlength]
    congr 1
    cases source with
    | nil => rw [List.take_nil]
    | cons a source =>
      obtain ⟨k, hk⟩ := Nat.exists_eq_succ_of_ne_zero positive
      rw [hlength, hk]
      rfl
  · rw [← isLegalUTF8_append _ (source.drop length), List.take_append_drop, taken, legal]
  · rw [taken, readUTF8Sequence, readUTF8Sequence, List.take_take, Nat.min_self]

theorem sequence_of_isASCII (h : isASCII b = true) : Sequence [b] b.toNat := by
  rw [isASCII_iff] at h
  refine ⟨by simp [inlineUTF8SequenceLength_eq, h], ?_, ?_⟩
  · simp [isLegalUTF8, isLegalFirst_iff]
    omega
  · simp [readUTF8Sequence, offsetsFromUTF8]

theorem unitsOf_of_isASCII (h : isASCII b = true) : unitsOf b.toNat = [b.toUInt16] := by
  rw [isASCII_iff] at h
  rw [unitsOf, if_pos (by omega)]
  simp

theorem fromUTF8_of_isASCII {source : List UInt8} (h : source.all isASCII = true) :
    fromUTF8 source = some (source.map (·.toUInt16)) := by
  cases source with
  | nil => rfl
  | cons b source => simp [fromUTF8, charactersAreAllASCII, h]

theorem Lax.ne_utf8EncodeChar (h : Lax l n) (c : Char) :
    l ≠ String.utf8EncodeChar c := by
  have valid : c.val.toNat.isValidChar := c.valid
  simp only [Nat.isValidChar] at valid
  intro e
  unfold String.utf8EncodeChar at e
  generalize c.val.toNat = v at valid e
  dsimp only at e
  cases h with
  | three a b ha hb =>
    split_ifs at e with one two three
    · simp at e
    · simp at e
    · simp only [List.cons.injEq, ← UInt8.toNat_inj, UInt8.toNat_ofNat'] at e
      omega
    · simp at e
  | four a b d ha hb hd =>
    split_ifs at e with one two three
    · simp at e
    · simp at e
    · simp at e
    · simp only [List.cons.injEq, ← UInt8.toNat_inj, UInt8.toNat_ofNat'] at e
      omega

end Odyssey.WTF.UTF8
