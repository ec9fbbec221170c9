import Mathlib.Data.List.Forall2
import Odyssey.WTF.StringHasher
import Odyssey.WTF.UTF8Convert

/-!
# Hashing and comparing UTF-8

`calculateStringHashAndLengthFromUTF8MaskingTop8Bits`, `equalUTF16WithUTF8` and
`equalLatin1WithUTF8` decode UTF-8 on their own. The first two agree with `convertUTF8ToUTF16`. The
third cuts the code point of a sequence of two bytes to eight bits, so that a character above
U+00FF can pass for one below.
-/
namespace Odyssey.WTF.UTF8

/-- The loop of `calculateStringHashAndLengthFromUTF8MaskingTop8Bits`: the hash, `dataLength` and
`utf16Length`. -/
def hashLoop :
    Nat → List UInt8 → StringHasher → UInt32 → UInt32 → UInt32 × UInt32 × UInt32
  | _, [], hasher, dataLength, utf16Length =>
    (hasher.hashWithTop8BitsMasked, dataLength, utf16Length)
  | 0, _ :: _, _, dataLength, utf16Length => (0, dataLength, utf16Length)
  | turns + 1, b :: data, hasher, dataLength, utf16Length =>
    if isASCII b then
      hashLoop turns data (hasher.addCharacter b.toUInt16) (dataLength + 1) (utf16Length + 1)
    else
      let length := inlineUTF8SequenceLengthNonASCII b
      let dataLength := dataLength + UInt32.ofNat length
      if (b :: data).length < length then (0, dataLength, utf16Length)
      else if !isLegalUTF8 (b :: data) length then (0, dataLength, utf16Length)
      else
        let character := readUTF8Sequence (b :: data) length
        let rest := (b :: data).drop length
        if isBMP character then
          if isSurrogate character then (0, dataLength, utf16Length)
          else
            hashLoop turns rest (hasher.addCharacter character.toUInt16) dataLength
              (utf16Length + 1)
        else if isSupplementary character then
          hashLoop turns rest (hasher.addCharacters (u16Lead character) (u16Trail character))
            dataLength (utf16Length + 2)
        else (0, dataLength, utf16Length)

/-- The bytes from `data` to `dataEnd`, or to the first zero byte if there is no end. -/
def byteRange (data : List UInt8) (hasDataEnd : Bool) : List UInt8 :=
  if hasDataEnd then data else data.takeWhile (· != 0)

/-- `calculateStringHashAndLengthFromUTF8MaskingTop8Bits` of the bytes at `data`. Without `dataEnd`
a zero byte inside a sequence counts as missing. -/
def calculateStringHashAndLengthFromUTF8MaskingTop8Bits (data : Option (List UInt8))
    (hasDataEnd : Bool) : UInt32 × UInt32 × UInt32 :=
  match data with
  | none => (0, 0, 0)
  | some data =>
    hashLoop (byteRange data hasDataEnd).length (byteRange data hasDataEnd) .start 0 0

def isASCII16 (u : UInt16) : Bool := u &&& 0xFF80 == 0

/-- The loop of `equalUTF16WithUTF8`; `none` is a read past the end of `a`. -/
def equalUTF16Loop : Nat → Text → List UInt8 → Option Bool
  | _, _, [] => some true
  | 0, _, _ :: _ => some false
  | _ + 1, [], _ :: _ => none
  | turns + 1, x :: a, y :: b =>
    if isASCII16 x || isASCII y then
      if x != y.toUInt16 then some false else equalUTF16Loop turns a b
    else
      let length := inlineUTF8SequenceLengthNonASCII y
      if (y :: b).length < length then some false
      else if !isLegalUTF8 (y :: b) length then some false
      else
        let character := readUTF8Sequence (y :: b) length
        let rest := (y :: b).drop length
        if isBMP character then
          if isSurrogate character then some false
          else if x.toNat != character then some false
          else equalUTF16Loop turns a rest
        else if isSupplementary character then
          if x != u16Lead character then some false
          else
            match a with
            | [] => none
            | x' :: a =>
              if x' != u16Trail character then some false else equalUTF16Loop turns a rest
        else some false

def equalUTF16WithUTF8 (a : Text) (b : List UInt8) : Option Bool := equalUTF16Loop b.length a b

/-- The loop of `equalLatin1WithUTF8`; `none` is a read past the end of `a`. -/
def equalLatin1Loop : Nat → List UInt8 → List UInt8 → Option Bool
  | _, _, [] => some true
  | 0, _, _ :: _ => some false
  | _ + 1, [], _ :: _ => none
  | turns + 1, x :: a, y :: b =>
    if isASCII x || isASCII y then
      if x != y then some false else equalLatin1Loop turns a b
    else
      match b with
      | [] => some false
      | y' :: b =>
        if y &&& 0xE0 != 0xC0 || y' &&& 0xC0 != 0x80 then some false
        else
          let character := UInt8.ofNat
            (((y.toNat &&& 0x1F) <<< 6) ||| (y'.toNat &&& 0x3F))
          if x != character then some false else equalLatin1Loop turns a b

def equalLatin1WithUTF8 (a : List UInt8) (b : List UInt8) : Option Bool :=
  equalLatin1Loop b.length a b

/-! ## Sequences -/

variable {l b rest a : List UInt8} {n turns : Nat} {units : Text}

/-- A sequence is an ASCII byte or begins with another byte and has another code point. -/
theorem Sequence.ascii_or (h : Sequence l n) :
    (∃ b, l = [b] ∧ isASCII b = true ∧ n = b.toNat) ∨
      (∃ b b' l', l = b :: b' :: l' ∧ isASCII b = false ∧ 0x80 ≤ n) := by
  have hlength := h.length
  rcases l with _ | ⟨a, _ | ⟨b, l⟩⟩
  · exact absurd rfl h.ne_nil
  · left
    simp only [List.headD_cons, inlineUTF8SequenceLength_eq, List.length_singleton] at hlength
    have ha : a.toNat < 0x80 := by split_ifs at hlength <;> omega
    refine ⟨a, rfl, (isASCII_iff a).2 ha, ?_⟩
    rw [← h.read]
    simp [readUTF8Sequence, offsetsFromUTF8]
  · refine .inr ⟨a, b, l, rfl, ?_, ?_⟩
    · rw [Bool.eq_false_iff]
      intro ha
      simp [inlineUTF8SequenceLength, ha] at hlength
    · rcases h.cases with ⟨c, hc, rfl⟩ | hlax
      · by_contra hsmall
        have hone := congrArg List.length hc
        rw [length_utf8EncodeChar, if_pos (by omega)] at hone
        simp at hone
      · cases hlax <;> omega

theorem Sequence.isBMP_eq (h : Sequence l n) :
    isBMP n = decide (n < 0x10000) ∧ isSurrogate n = false ∧
      (¬n < 0x10000 → isSupplementary n = true) := by
  have valid := h.isValidChar
  simp only [Nat.isValidChar] at valid
  refine ⟨?_, ?_, ?_⟩
  · rw [isBMP, decide_eq_decide]
    omega
  · simp [isSurrogate]
    omega
  · simp [isSupplementary]
    omega

/-- What the loops see of a sequence that does not begin with an ASCII byte. -/
theorem Sequence.nonASCII {b : UInt8} (h : Sequence (b :: l) n) (hb : isASCII b = false)
    (rest : List UInt8) :
    inlineUTF8SequenceLengthNonASCII b = (b :: l).length ∧
      ¬(b :: (l ++ rest)).length < (b :: l).length ∧
      isLegalUTF8 (b :: (l ++ rest)) (b :: l).length = true ∧
      readUTF8Sequence (b :: (l ++ rest)) (b :: l).length = n ∧
      (b :: (l ++ rest)).drop (b :: l).length = rest := by
  have hlength := h.length
  rw [List.headD_cons, inlineUTF8SequenceLength, hb, if_neg Bool.false_ne_true] at hlength
  have hlegal := h.legal
  rw [← isLegalUTF8_append _ rest] at hlegal
  exact ⟨hlength, by simp, hlegal, h.read_append rest, List.drop_left⟩

/-! ## Code units -/

theorem unitsOf_of_lt (h : n < 0x10000) : unitsOf n = [n.toUInt16] ∧ n.toUInt16.toNat = n :=
  ⟨by rw [unitsOf, if_pos h], (UInt16.toNat_ofNat' (n := n)).trans (Nat.mod_eq_of_lt h)⟩

theorem toNat_u16Lead (hvalid : n < 0x110000) : (u16Lead n).toNat = n / 1024 + 0xD7C0 :=
  UInt16.toNat_ofNat'.trans (Nat.mod_eq_of_lt (by omega))

theorem Sequence.lt (h : Sequence l n) : n < 0x110000 := by
  have hvalid := h.isValidChar
  simp only [Nat.isValidChar] at hvalid
  omega

/-! ## The hash -/

theorem hashLoop_of_sequence {dataLength utf16Length : UInt32} {hasher : StringHasher}
    (h : Sequence l n) :
    hashLoop (turns + 1) (l ++ rest) hasher dataLength utf16Length =
      hashLoop turns rest ((unitsOf n).foldl StringHasher.addCharacter hasher)
        (dataLength + UInt32.ofNat l.length) (utf16Length + UInt32.ofNat (unitsOf n).length) := by
  rcases h.ascii_or with ⟨b, rfl, hb, rfl⟩ | ⟨b, b', l', rfl, hb, -⟩
  · simp [hashLoop, hb, unitsOf_of_isASCII hb]
  · obtain ⟨hbmp, hsurrogate, hsupplementary⟩ := h.isBMP_eq
    obtain ⟨hlength, hshort, hlegal, hread, hdrop⟩ := h.nonASCII hb rest
    rw [List.cons_append, hashLoop, hb, if_neg Bool.false_ne_true]
    simp only [hlength, hread, hlegal, hdrop, hshort, if_false, Bool.not_true,
      Bool.false_eq_true, hbmp, hsurrogate, decide_eq_true_eq]
    by_cases hn : n < 0x10000
    · rw [if_pos hn, unitsOf, if_pos hn]
      rfl
    · rw [if_neg hn, hsupplementary hn, if_pos rfl, unitsOf, if_neg hn,
        StringHasher.addCharacters_eq]
      rfl

theorem hashLoop_of_error {data : List UInt8} {dataLength utf16Length : UInt32}
    {hasher : StringHasher} {result : ConversionResult} (hne : data ≠ [])
    (h : decodeNext data = .error result) :
    (hashLoop (turns + 1) data hasher dataLength utf16Length).1 = 0 := by
  obtain ⟨b, data, rfl⟩ := List.exists_cons_of_ne_nil hne
  by_cases hb : isASCII b = true
  · cases h.symm.trans (decoder_next_of_sequence (sequence_of_isASCII hb) data)
  · rw [Bool.not_eq_true] at hb
    simp only [decodeNext, List.headD_cons, inlineUTF8SequenceLength, hb, Bool.false_eq_true,
      if_false] at h
    rw [hashLoop, hb, if_neg Bool.false_ne_true]
    split_ifs at h with short illegal
    · rw [if_pos short]
    · rw [if_neg short, if_pos illegal]

/-- A hash that is not zero is that of the decoded characters. -/
theorem hashLoop_spec {dataLength utf16Length : UInt32} {data : List UInt8}
    {hasher : StringHasher} (h : data.length ≤ turns)
    (hne : (hashLoop turns data hasher dataLength utf16Length).1 ≠ 0) :
    ∃ units, Reads data units ∧
      hashLoop turns data hasher dataLength utf16Length =
        ((units.foldl StringHasher.addCharacter hasher).hashWithTop8BitsMasked,
          dataLength + UInt32.ofNat data.length, utf16Length + UInt32.ofNat units.length) := by
  induction turns generalizing data hasher dataLength utf16Length with
  | zero =>
    obtain rfl := List.length_eq_zero_iff.1 (Nat.le_zero.1 h)
    exact ⟨[], .nil, by simp [hashLoop]⟩
  | succ turns ih =>
    by_cases hdata : data = []
    · subst hdata
      exact ⟨[], .nil, by simp [hashLoop]⟩
    cases hnext : decodeNext data with
    | error result => exact absurd (hashLoop_of_error hdata hnext) hne
    | ok next =>
      obtain ⟨units, rest⟩ := next
      obtain ⟨l, n, rfl, hl, rfl⟩ := decodeNext_eq_ok_iff.1 hnext
      have hpos := List.length_pos_iff.2 hl.ne_nil
      rw [List.length_append] at h
      rw [hashLoop_of_sequence hl] at hne ⊢
      obtain ⟨out, hreads, heq⟩ := ih (by omega) hne
      refine ⟨unitsOf n ++ out, .cons l _ rest out (readsOne_iff.2 ⟨n, hl, rfl⟩) hreads, ?_⟩
      rw [heq, List.foldl_append, List.length_append, List.length_append, UInt32.ofNat_add,
        UInt32.ofNat_add, UInt32.add_assoc, UInt32.add_assoc]

/-! ## Comparing -/

theorem isASCII16_iff (u : UInt16) : isASCII16 u = true ↔ u.toNat < 0x80 := by
  have hu : u.toNat % 65536 = u.toNat := Nat.mod_eq_of_lt u.toNat_lt
  have hlow : u.toNat &&& 127 = u.toNat % 128 := Nat.and_two_pow_sub_one_eq_mod u.toNat 7
  have hsplit : (u.toNat &&& 65408) ||| (u.toNat &&& 127) = u.toNat := by
    rw [← Nat.and_or_distrib_left]
    exact (Nat.and_two_pow_sub_one_eq_mod u.toNat 16).trans hu
  have hiff : isASCII16 u = true ↔ u.toNat &&& 65408 = 0 := by
    rw [isASCII16, beq_iff_eq, ← UInt16.toNat_inj, UInt16.toNat_and]
    rfl
  rw [hiff]
  constructor
  · intro h
    rw [h, hlow, Nat.zero_or] at hsplit
    omega
  · intro h
    rw [← Nat.mod_eq_of_lt h, ← hlow, Nat.and_assoc]
    exact Nat.and_zero _

/-- A nonASCII sequence begins with no ASCII unit. -/
theorem isASCII16_head_unitsOf (hn : 0x80 ≤ n) (hvalid : n < 0x110000) :
    isASCII16 ((unitsOf n).headD 0) = false := by
  rw [Bool.eq_false_iff, Ne, isASCII16_iff]
  by_cases hsmall : n < 0x10000
  · obtain ⟨hunits, hvalue⟩ := unitsOf_of_lt hsmall
    rw [hunits, List.headD_cons, hvalue]
    omega
  · rw [unitsOf, if_neg hsmall, List.headD_cons, toNat_u16Lead hvalid]
    omega

/-- The comparison of the first unit, and the second one if there is one. -/
theorem equalUTF16Loop_nonASCII {a : Text} {x : UInt16} {b : UInt8} (h : Sequence (b :: l) n)
    (hb : isASCII b = false) (hx : isASCII16 x = false) :
    equalUTF16Loop (turns + 1) (x :: a) (b :: (l ++ rest)) =
      if n < 0x10000 then if x.toNat = n then equalUTF16Loop turns a rest else some false
      else if x = u16Lead n then
        match a with
        | [] => none
        | x' :: a => if x' = u16Trail n then equalUTF16Loop turns a rest else some false
      else some false := by
  obtain ⟨hbmp, hsurrogate, hsupplementary⟩ := h.isBMP_eq
  obtain ⟨hlength, hshort, hlegal, hread, hdrop⟩ := h.nonASCII hb rest
  simp only [equalUTF16Loop, hx, hb, Bool.or_false, Bool.false_eq_true, if_false, hlength, hread,
    hlegal, hdrop, hshort, Bool.not_true, hbmp, hsurrogate, decide_eq_true_eq]
  by_cases hsmall : n < 0x10000
  · by_cases hxn : x.toNat = n <;> simp [hsmall, hxn]
  · by_cases hlead : x = u16Lead n
    · cases a with
      | nil => simp [hsmall, hsupplementary hsmall, hlead]
      | cons x' a =>
        by_cases htrail : x' = u16Trail n <;>
          simp [hsmall, hsupplementary hsmall, hlead, htrail]
    · simp [hsmall, hsupplementary hsmall, hlead]

theorem equalUTF16Loop_of_sequence {a a' : Text} (h : Sequence l n)
    (ha : a.length = (unitsOf n).length) :
    equalUTF16Loop (turns + 1) (a ++ a') (l ++ rest) =
      if a = unitsOf n then equalUTF16Loop turns a' rest else some false := by
  rcases h.ascii_or with ⟨b, rfl, hb, rfl⟩ | ⟨b, b', l', rfl, hb, hn⟩
  · rw [unitsOf_of_isASCII hb] at ha ⊢
    obtain ⟨x, rfl⟩ := List.length_eq_one_iff.1 ha
    by_cases hx : x = b.toUInt16
    · simp [equalUTF16Loop, hb, hx]
    · simp [equalUTF16Loop, hb, hx]
  · obtain ⟨x, t, rfl⟩ : ∃ x t, a = x :: t := by
      cases a with
      | nil =>
        rw [unitsOf] at ha
        split_ifs at ha
      | cons x t => exact ⟨x, t, rfl⟩
    rw [List.cons_append, List.cons_append]
    by_cases hx : isASCII16 x = true
    · have hxb : x ≠ b.toUInt16 := by
        rintro rfl
        rw [isASCII16_iff, UInt8.toNat_toUInt16, ← isASCII_iff, hb] at hx
        cases hx
      have hxn : x :: t ≠ unitsOf n := by
        intro heq
        have hhead := isASCII16_head_unitsOf hn h.lt
        rw [← heq, List.headD_cons, hx] at hhead
        cases hhead
      rw [if_neg hxn]
      simp [equalUTF16Loop, hx, hxb]
    · rw [Bool.not_eq_true] at hx
      rw [equalUTF16Loop_nonASCII h hb hx]
      by_cases hsmall : n < 0x10000
      · obtain ⟨hunits, hvalue⟩ := unitsOf_of_lt hsmall
        rw [hunits, List.length_singleton, List.length_cons] at ha
        obtain rfl := List.length_eq_zero_iff.1 (show t.length = 0 by omega)
        have hiff : [x] = unitsOf n ↔ x.toNat = n := by
          rw [hunits, List.cons.injEq, ← UInt16.toNat_inj, hvalue]
          simp
        rw [if_pos hsmall, if_congr hiff rfl rfl]
        rfl
      · rw [unitsOf, if_neg hsmall, List.length_cons, List.length_cons, List.length_singleton] at ha
        obtain ⟨x', rfl⟩ := List.length_eq_one_iff.1 (show t.length = 1 by omega)
        rw [if_neg hsmall, unitsOf, if_neg hsmall]
        by_cases hlead : x = u16Lead n
        · by_cases htrail : x' = u16Trail n <;> simp [hlead, htrail]
        · simp [hlead]

theorem equalUTF16Loop_eq {a : Text} (h : Reads b units) (hturns : b.length ≤ turns)
    (ha : a.length = units.length) :
    equalUTF16Loop turns a b = some (decide (a = units)) := by
  induction h generalizing turns a with
  | nil =>
    obtain rfl := List.length_eq_zero_iff.1 ha
    cases turns <;> simp [equalUTF16Loop]
  | cons l u b units one _ ih =>
    obtain ⟨n, hl, rfl⟩ := readsOne_iff.1 one
    have hpos := List.length_pos_iff.2 hl.ne_nil
    rw [List.length_append] at hturns ha
    obtain ⟨turns, rfl⟩ : ∃ k, turns = k + 1 := ⟨turns - 1, by omega⟩
    obtain ⟨a₁, a₂, rfl, ha₁⟩ : ∃ a₁ a₂, a = a₁ ++ a₂ ∧ a₁.length = (unitsOf n).length :=
      ⟨a.take (unitsOf n).length, a.drop (unitsOf n).length, (List.take_append_drop _ a).symm,
        by rw [List.length_take]; omega⟩
    rw [List.length_append] at ha
    rw [equalUTF16Loop_of_sequence hl ha₁, ih (by omega) (by omega)]
    by_cases heq : a₁ = unitsOf n
    · simp [heq]
    · rw [if_neg heq, decide_eq_false]
      intro happend
      exact heq (List.append_inj happend ha₁).1

/-- A string that ends within a sequence of two units is read past its end. -/
theorem equalUTF16Loop_lead (h : Sequence l n) (hn : ¬n < 0x10000) :
    equalUTF16Loop (turns + 1) [u16Lead n] (l ++ rest) = none := by
  obtain ⟨b, b', l', rfl, hb, -⟩ := h.ascii_or.resolve_left fun ⟨b, _, hb, hvalue⟩ => by
    rw [isASCII_iff] at hb
    omega
  have hhead := isASCII16_head_unitsOf (show 0x80 ≤ n by omega) h.lt
  rw [unitsOf, if_neg hn, List.headD_cons] at hhead
  rw [List.cons_append, equalUTF16Loop_nonASCII h hb hhead, if_neg hn, if_pos rfl]

/-- A string that ends before the decoding does is read past its end. -/
theorem equalUTF16Loop_take {k : Nat} (h : Reads b units) (hturns : b.length ≤ turns)
    (hk : k < units.length) :
    equalUTF16Loop turns (units.take k) b = none := by
  induction h generalizing turns k with
  | nil => exact absurd hk (Nat.not_lt_zero k)
  | cons l u b units one _ ih =>
    obtain ⟨n, hl, rfl⟩ := readsOne_iff.1 one
    have hpos := List.length_pos_iff.2 hl.ne_nil
    rw [List.length_append] at hturns hk
    obtain ⟨turns, rfl⟩ : ∃ m, turns = m + 1 := ⟨turns - 1, by omega⟩
    rcases Nat.lt_or_ge k (unitsOf n).length with hless | hmore
    · rw [List.take_append_of_le_length hless.le]
      cases k with
      | zero =>
        obtain ⟨y, l, rfl⟩ := List.exists_cons_of_ne_nil hl.ne_nil
        rfl
      | succ k =>
        have hlarge : ¬n < 0x10000 := by
          intro hsmall
          rw [unitsOf, if_pos hsmall, List.length_singleton] at hless
          omega
        have hunits : unitsOf n = [u16Lead n, u16Trail n] := by rw [unitsOf, if_neg hlarge]
        rw [hunits, List.length_cons, List.length_singleton] at hless
        obtain rfl : k = 0 := by omega
        rw [hunits]
        exact equalUTF16Loop_lead hl hlarge
    · rw [List.take_append, List.take_of_length_le hmore, equalUTF16Loop_of_sequence hl rfl,
        if_pos rfl]
      exact ih (by omega) (by omega)

/-- What passes for a code unit in `equalLatin1WithUTF8`. -/
def PassesFor (x : UInt8) (u : UInt16) : Prop :=
  u.toNat < 0x800 ∧ x = u.toUInt8 ∧ (0x80 ≤ u.toNat → 0x80 ≤ x.toNat)

instance (x : UInt8) (u : UInt16) : Decidable (PassesFor x u) :=
  inferInstanceAs (Decidable (_ ∧ _))

/-- Sequences of two bytes are those that the Latin-1 comparison decodes. -/
theorem Sequence.two_or {b b' : UInt8} (h : Sequence (b :: b' :: l) n) :
    (l = [] ∧ n < 0x800 ∧ b &&& 0xE0 = 0xC0 ∧ b' &&& 0xC0 = 0x80 ∧
        ((b.toNat &&& 0x1F) <<< 6) ||| (b'.toNat &&& 0x3F) = n) ∨
      (0x800 ≤ n ∧ b &&& 0xE0 ≠ 0xC0) := by
  have hmask (m : UInt8) : m &&& 0xE0 = 0xC0 ↔ 0xC0 ≤ m.toNat ∧ m.toNat < 0xE0 := by
    have every : ∀ k < 256, UInt8.ofNat k &&& 0xE0 = 0xC0 ↔ 0xC0 ≤ k ∧ k < 0xE0 := by
      decide +kernel
    simpa using every m.toNat m.toNat_lt
  have hmask' (m : UInt8) : m &&& 0xC0 = 0x80 ↔ 0x80 ≤ m.toNat ∧ m.toNat < 0xC0 := by
    have every : ∀ k < 256, UInt8.ofNat k &&& 0xC0 = 0x80 ↔ 0x80 ≤ k ∧ k < 0xC0 := by
      decide +kernel
    simpa using every m.toNat m.toNat_lt
  have hlength := h.length
  simp only [List.headD_cons, inlineUTF8SequenceLength_eq, List.length_cons] at hlength
  cases l with
  | nil =>
    left
    have hb : 0xC0 ≤ b.toNat ∧ b.toNat < 0xE0 := by
      rw [List.length_nil] at hlength
      split_ifs at hlength <;> omega
    have hlegal := h.legal
    have hread := h.read
    simp only [isLegalUTF8, List.length_cons, List.length_nil, List.getD_cons_zero,
      List.getD_cons_succ, Bool.and_eq_true, isLegalFirst_iff, isLegalSecond_iff] at hlegal
    simp only [readUTF8Sequence, offsetsFromUTF8, List.length_cons, List.length_nil,
      List.take_succ_cons, List.take_zero, List.foldl_cons, List.foldl_nil, List.getD_cons_zero,
      List.getD_cons_succ, Nat.add_sub_cancel] at hread
    have hlow : b.toNat &&& 0x1F = b.toNat % 32 := Nat.and_two_pow_sub_one_eq_mod b.toNat 5
    have hlow' : b'.toNat &&& 0x3F = b'.toNat % 64 := Nat.and_two_pow_sub_one_eq_mod b'.toNat 6
    refine ⟨rfl, by omega, (hmask b).2 hb, (hmask' b').2 (by omega), ?_⟩
    rw [hlow, hlow', ← Nat.shiftLeft_add_eq_or_of_lt (by omega), Nat.shiftLeft_eq]
    omega
  | cons b'' l =>
    right
    have hb : ¬b.toNat < 0xE0 := by
      rw [List.length_cons] at hlength
      split_ifs at hlength <;> omega
    refine ⟨?_, fun hne => hb ((hmask b).1 hne).2⟩
    rcases h.cases with ⟨c, hc, rfl⟩ | hlax
    · by_contra hsmall
      have hshort : (String.utf8EncodeChar c).length ≤ 2 := by
        rw [length_utf8EncodeChar]
        split_ifs <;> omega
      rw [← hc] at hshort
      simp at hshort
    · cases hlax <;> omega

theorem not_passesFor_of_le {x : UInt8} (hn : 0x800 ≤ n) (hvalid : n < 0x110000) :
    ¬PassesFor x ((unitsOf n).headD 0) := by
  rintro ⟨hlt, -⟩
  by_cases hsmall : n < 0x10000
  · obtain ⟨hunits, hvalue⟩ := unitsOf_of_lt hsmall
    rw [hunits, List.headD_cons, hvalue] at hlt
    omega
  · rw [unitsOf, if_neg hsmall, List.headD_cons, toNat_u16Lead hvalid] at hlt
    omega

theorem passesFor_iff {x : UInt8} (hn : n < 0x800) :
    PassesFor x ((unitsOf n).headD 0) ↔ x = UInt8.ofNat n ∧ (0x80 ≤ n → 0x80 ≤ x.toNat) := by
  obtain ⟨hunits, hvalue⟩ := unitsOf_of_lt (show n < 0x10000 by omega)
  have hcut : n.toUInt16.toUInt8 = UInt8.ofNat n := by
    rw [← UInt8.toNat_inj, UInt16.toNat_toUInt8, hvalue, UInt8.toNat_ofNat']
  rw [hunits, List.headD_cons, PassesFor, hvalue, hcut]
  exact and_iff_right hn

theorem equalLatin1Loop_of_sequence {x : UInt8} (h : Sequence l n) :
    equalLatin1Loop (turns + 1) (x :: a) (l ++ rest) =
      if PassesFor x ((unitsOf n).headD 0) then equalLatin1Loop turns a rest
      else some false := by
  rcases h.ascii_or with ⟨b, rfl, hb, rfl⟩ | ⟨b, b', l', rfl, hb, hn⟩
  · have hlt := (isASCII_iff b).1 hb
    have hiff : PassesFor x ((unitsOf b.toNat).headD 0) ↔ x = b := by
      rw [passesFor_iff (by omega), UInt8.ofNat_toNat]
      exact and_iff_left fun hle => by omega
    rw [if_congr hiff rfl rfl]
    by_cases hx : x = b <;> simp [equalLatin1Loop, hb, hx]
  have hvalid := h.lt
  by_cases hx : isASCII x = true
  · have hxb : x ≠ b := by
      rintro rfl
      rw [hb] at hx
      cases hx
    have hnot : ¬PassesFor x ((unitsOf n).headD 0) := by
      by_cases hsmall : n < 0x800
      · rw [passesFor_iff hsmall]
        rw [isASCII_iff] at hx
        omega
      · exact not_passesFor_of_le (by omega) (by omega)
    rw [if_neg hnot]
    simp [equalLatin1Loop, hx, hxb]
  · rw [Bool.not_eq_true] at hx
    have hx' : 0x80 ≤ x.toNat := by
      rw [Bool.eq_false_iff, Ne, isASCII_iff] at hx
      omega
    rcases h.two_or with ⟨rfl, hsmall, hmask, hmask', hvalue⟩ | ⟨hlarge, hmask⟩
    · have hiff : PassesFor x ((unitsOf n).headD 0) ↔ x = UInt8.ofNat n := by
        rw [passesFor_iff hsmall]
        exact and_iff_left fun _ => hx'
      rw [if_congr hiff rfl rfl]
      by_cases hxn : x = UInt8.ofNat n
      · simp [equalLatin1Loop, hx, hb, hmask, hmask', hvalue, ← hxn]
      · simp [equalLatin1Loop, hx, hb, hmask, hmask', hvalue, hxn]
    · rw [if_neg (not_passesFor_of_le hlarge (by omega))]
      simp [equalLatin1Loop, hx, hb, hmask]

theorem equalLatin1Loop_eq (h : Reads b units) (hturns : b.length ≤ turns)
    (ha : a.length = units.length) :
    equalLatin1Loop turns a b = some (decide (List.Forall₂ PassesFor a units)) := by
  induction h generalizing turns a with
  | nil =>
    obtain rfl := List.length_eq_zero_iff.1 ha
    cases turns <;> simp [equalLatin1Loop]
  | cons l u b units one _ ih =>
    obtain ⟨n, hl, rfl⟩ := readsOne_iff.1 one
    have hpos := List.length_pos_iff.2 hl.ne_nil
    have hvalid := hl.lt
    rw [List.length_append] at hturns ha
    obtain ⟨turns, rfl⟩ : ∃ k, turns = k + 1 := ⟨turns - 1, by omega⟩
    obtain ⟨u, us, hunits⟩ : ∃ u us, unitsOf n = u :: us := by
      unfold unitsOf
      split_ifs
      · exact ⟨_, _, rfl⟩
      · exact ⟨_, _, rfl⟩
    obtain ⟨x, a, rfl⟩ : ∃ x t, a = x :: t := by
      cases a with
      | nil =>
        rw [hunits, List.length_nil, List.length_cons] at ha
        omega
      | cons x t => exact ⟨x, t, rfl⟩
    rw [equalLatin1Loop_of_sequence hl]
    by_cases hpasses : PassesFor x ((unitsOf n).headD 0)
    · have hsmall : n < 0x800 := by
        by_contra hlarge
        exact not_passesFor_of_le (by omega) (by omega) hpasses
      have hone := (unitsOf_of_lt (show n < 0x10000 by omega)).1
      rw [if_pos hpasses]
      rw [hone] at ha hpasses ⊢
      simp only [List.length_cons, List.length_nil] at ha
      rw [ih (by omega) (by omega)]
      simp only [List.headD_cons] at hpasses
      simp [hpasses]
    · rw [if_neg hpasses, hunits, List.cons_append, decide_eq_false]
      intro hforall
      rw [List.forall₂_cons] at hforall
      rw [hunits, List.headD_cons] at hpasses
      exact hpasses hforall.1

/-- The string is another one than the decoding, but passes for it: characters above U+00FF are
taken for their low bytes. -/
def Aliases (a : List UInt8) (units : Text) : Prop :=
  a.map (·.toUInt16) ≠ units ∧ List.Forall₂ PassesFor a units

theorem passesFor_of_map_eq (h : a.map (·.toUInt16) = units) :
    List.Forall₂ PassesFor a units := by
  subst h
  rw [List.forall₂_map_right_iff]
  refine List.forall₂_same.2 fun x _ => ?_
  have hx := x.toNat_lt
  refine ⟨?_, by simp, ?_⟩
  · rw [UInt8.toNat_toUInt16]
    omega
  · rw [UInt8.toNat_toUInt16]
    exact id

theorem equalLatin1_eq_iff (h : Reads b units) (ha : a.length = units.length) :
    equalLatin1WithUTF8 a b = some (decide (a.map (·.toUInt16) = units)) ↔ ¬Aliases a units := by
  rw [equalLatin1WithUTF8, equalLatin1Loop_eq h (Nat.le_refl _) ha, Option.some_inj,
    decide_eq_decide, Aliases]
  constructor
  · rintro hiff ⟨hne, hpasses⟩
    exact hne (hiff.1 hpasses)
  · intro hnot
    refine ⟨fun hpasses => ?_, passesFor_of_map_eq⟩
    by_contra hne
    exact hnot ⟨hne, hpasses⟩

theorem Reads.items (h : Reads b units) :
    decoder.Items b units [] := by
  induction h with
  | nil => exact .refl []
  | cons l u b units one _ ih =>
    obtain ⟨n, hl, rfl⟩ := readsOne_iff.1 one
    exact items_of_sequence hl ih

/-- The bytes that are accepted: their decoding, its hash, and what the two comparisons with strings
of the reported length say. The length is right as long as it can be counted. -/
theorem hash_and_equal_iff (data : List UInt8) (hasDataEnd : Bool) (hash : UInt32)
    (dataLength utf16Length : UInt32)
    (hresult : calculateStringHashAndLengthFromUTF8MaskingTop8Bits (some data) hasDataEnd =
      (hash, dataLength, utf16Length)) (hne : hash ≠ 0) :
    ∃ units,
      (∀ targetEnd, units.length ≤ targetEnd →
        convertUTF8ToUTF16 (byteRange data hasDataEnd) targetEnd true =
          (.conversionOK, [], units)) ∧
      hash = StringHasher.computeHashAndMaskTop8Bits units ∧
      ((∀ a : Text, a.length = utf16Length.toNat →
          equalUTF16WithUTF8 a (byteRange data hasDataEnd) = some (decide (a = units))) ↔
        units.length < 2 ^ 32) ∧
      (units.length < 2 ^ 32 → ∀ a : List UInt8, a.length = utf16Length.toNat →
        (equalLatin1WithUTF8 a (byteRange data hasDataEnd) =
            some (decide (a.map (·.toUInt16) = units)) ↔
          ¬Aliases a units)) := by
  generalize hb : byteRange data hasDataEnd = bytes
  rw [calculateStringHashAndLengthFromUTF8MaskingTop8Bits, hb] at hresult
  obtain ⟨units, hreads, heq⟩ := hashLoop_spec (Nat.le_refl _) (by rw [hresult]; exact hne)
  rw [hresult, UInt32.zero_add, UInt32.zero_add] at heq
  obtain ⟨rfl, hlengths⟩ := Prod.mk.inj heq
  obtain ⟨rfl, rfl⟩ := Prod.mk.inj hlengths
  have hlength : (UInt32.ofNat units.length).toNat = units.length % 2 ^ 32 := UInt32.toNat_ofNat'
  rw [hlength]
  refine ⟨units, ?_, (StringHasher.computeHashAndMaskTop8Bits_eq units).symm, ?_, ?_⟩
  · intro targetEnd hroom
    rw [convertUTF8ToUTF16_eq, Lib.Reader.convert_eq_of_ends hreads.items .done hroom]
    rfl
  · constructor
    · intro h
      by_contra hlong
      have hshort : units.length % 2 ^ 32 < units.length :=
        (Nat.mod_lt _ (by decide)).trans_le (Nat.not_lt.mp hlong)
      have hnone := equalUTF16Loop_take hreads (Nat.le_refl _) hshort
      have hsome := h (units.take (units.length % 2 ^ 32)) (List.length_take_of_le hshort.le)
      rw [equalUTF16WithUTF8, hnone] at hsome
      cases hsome
    · intro hshort a ha
      rw [Nat.mod_eq_of_lt hshort] at ha
      exact equalUTF16Loop_eq hreads (Nat.le_refl _) ha
  · intro hshort a ha
    rw [Nat.mod_eq_of_lt hshort] at ha
    exact equalLatin1_eq_iff hreads ha

/-- The bytes of U+00C1 and U+0041, with strings that are their decoding. -/
theorem hash_and_equal_latin1 :
    equalUTF16WithUTF8 [0xC1, 0x41] [0xC3, 0x81, 0x41] = some true ∧
      equalLatin1WithUTF8 [0xC1, 0x41] [0xC3, 0x81, 0x41] = some true := by
  obtain ⟨units, hconvert, -, hutf16, hlatin1⟩ :=
    hash_and_equal_iff [0xC3, 0x81, 0x41] true _ 3 2 rfl (by decide)
  have hitems : decoder.Items [0xC3, 0x81, 0x41] [0xC1, 0x41] [] :=
    items_of_sequence (l := [0xC3, 0x81]) (n := 0xC1) ⟨rfl, rfl, rfl⟩
      (items_of_sequence (sequence_of_isASCII (b := 0x41) rfl) (.refl []))
  have hdecode := hconvert (units.length + 2) (Nat.le_add_right _ _)
  rw [show byteRange [0xC3, 0x81, 0x41] true = [0xC3, 0x81, 0x41] from rfl, convertUTF8ToUTF16_eq,
    Lib.Reader.convert_eq_of_ends hitems .done (Nat.le_add_left 2 units.length)] at hdecode
  obtain rfl : [0xC1, 0x41] = units := congrArg (fun r => r.2.2) hdecode
  exact ⟨hutf16.2 (by decide) _ rfl,
    (hlatin1 (by decide) [0xC1, 0x41] rfl).2 fun h => h.1 rfl⟩

/-- U+00C1 passes for U+01C1. -/
theorem equalLatin1WithUTF8_aliases :
    (calculateStringHashAndLengthFromUTF8MaskingTop8Bits (some [0xC7, 0x81]) true).1 ≠ 0 ∧
      (calculateStringHashAndLengthFromUTF8MaskingTop8Bits (some [0xC7, 0x81]) true).2 = (2, 1) ∧
      convertUTF8ToUTF16 [0xC7, 0x81] 1 true = (.conversionOK, [], [0x1C1]) ∧
      equalLatin1WithUTF8 [0xC1] [0xC7, 0x81] = some true := by
  decide

end Odyssey.WTF.UTF8
