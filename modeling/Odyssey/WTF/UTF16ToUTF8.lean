import Odyssey.WTF.UTF8Convert

/-!
# Encoding UTF-16 as UTF-8

`convertUTF16ToUTF8` pairs surrogates, writes the bytes of a code point from the last to the first
and goes back to the start of a code point that does not fit. In strict mode it stops at the first
unpaired surrogate, and `convertUTF8ToUTF16` undoes it.
-/
namespace Odyssey.WTF.UTF8

open Lib (Reader Stop turnLoop turnLoop_eq)

def firstByteMark : List Nat := [0x00, 0x00, 0xC0, 0xE0, 0xF0, 0xF8, 0xFC]

/-- The cases of the switch that fall through: each writes six bits in front. -/
def writeTrailing : Nat → Nat → List UInt8 → Nat × List UInt8
  | 0, ch, target => (ch, target)
  | count + 1, ch, target =>
    writeTrailing count (ch >>> 6) (UInt8.ofNat ((ch ||| 0x80) &&& 0xBF) :: target)

def writeSequence (bytesToWrite ch : Nat) : List UInt8 :=
  let (ch, target) := writeTrailing (bytesToWrite - 1) ch []
  UInt8.ofNat (ch ||| firstByteMark.getD bytesToWrite 0) :: target

/-- The number of bytes and the character that is written. -/
def bytesToWrite (ch : Nat) : Nat × Nat :=
  if ch < 0x80 then (1, ch)
  else if ch < 0x800 then (2, ch)
  else if ch < 0x10000 then (3, ch)
  else if ch < 0x110000 then (4, ch)
  else (3, replacementCharacter.toNat)

def isHighSurrogate (u : UInt16) : Bool := 0xD800 ≤ u && u ≤ 0xDBFF

def isLowSurrogate (u : UInt16) : Bool := 0xDC00 ≤ u && u ≤ 0xDFFF

/-- The code point at the start of the source and what follows it. -/
def readUTF16 (strict : Bool) : Text → Except ConversionResult (Nat × Text)
  | [] => .error .sourceExhausted
  | ch :: source =>
    if isHighSurrogate ch then
      match source with
      | ch2 :: rest =>
        if isLowSurrogate ch2 then
          .ok (((ch.toNat - 0xD800) <<< 10) + (ch2.toNat - 0xDC00) + 0x10000, rest)
        else if strict then .error .sourceIllegal
        else .ok (ch.toNat, source)
      | [] => .error .sourceExhausted
    else if strict && isLowSurrogate ch then .error .sourceIllegal
    else .ok (ch.toNat, source)

/-- One turn of the loop of `convertUTF16ToUTF8`. -/
def encodeTurn (strict : Bool) (targetEnd : Nat) (source : Text) (target : List UInt8) :
    Except ConversionResult (Text × List UInt8) := do
  let (ch, rest) ← readUTF16 strict source
  let (count, ch) := bytesToWrite ch
  if target.length + count > targetEnd then .error .targetExhausted
  else .ok (rest, target ++ writeSequence count ch)

/-- `convertUTF16ToUTF8`: the result, what is left of the source, and what was written. Every turn
consumes a code unit. -/
def convertUTF16ToUTF8 (source : Text) (targetEnd : Nat) (strict : Bool) :
    ConversionResult × Text × List UInt8 :=
  turnLoop (encodeTurn strict targetEnd) .conversionOK .sourceExhausted source.length source []

/-- One call after the other, each with a target of its own and the rest of the source. -/
def convertUTF16ToUTF8Pieces : List Nat → Text → ConversionResult × Text × List UInt8
  | [], source => (.targetExhausted, source, [])
  | targetEnd :: targetEnds, source =>
    match convertUTF16ToUTF8 source targetEnd true with
    | (.targetExhausted, rest, out) =>
      let (result, rest, out') := convertUTF16ToUTF8Pieces targetEnds rest
      (result, rest, out ++ out')
    | r => r

/-! ## Bytes -/

theorem trailing_eq (n : Nat) :
    UInt8.ofNat ((n ||| 0x80) &&& 0xBF) = UInt8.ofNat (n % 64 + 128) := by
  have every : ∀ m < 256, (UInt8.ofNat m ||| UInt8.ofNat 0x80) &&& UInt8.ofNat 0xBF =
      UInt8.ofNat (m % 64 + 128) := by
    decide +kernel
  have hmod : UInt8.ofNat (n % 256) = UInt8.ofNat n := UInt8.ofNat_mod_size
  rw [UInt8.ofNat_and, UInt8.ofNat_or, ← hmod, every _ (Nat.mod_lt _ (by decide)),
    Nat.mod_mod_of_dvd _ (by decide)]

/-- The bytes that are written are the UTF-8 encoding. -/
theorem writeSequence_char (c : Char) :
    writeSequence (bytesToWrite c.toNat).1 (bytesToWrite c.toNat).2 = String.utf8EncodeChar c ∧
      (bytesToWrite c.toNat).1 = (String.utf8EncodeChar c).length := by
  have valid : c.val.toNat.isValidChar := c.valid
  have two : ∀ m < 32, UInt8.ofNat (m ||| 0xC0) = UInt8.ofNat (m % 32 + 192) := by decide +kernel
  have three : ∀ m < 16, UInt8.ofNat (m ||| 0xE0) = UInt8.ofNat (m % 16 + 224) := by decide +kernel
  have four : ∀ m < 8, UInt8.ofNat (m ||| 0xF0) = UInt8.ofNat (m % 8 + 240) := by decide +kernel
  simp only [Nat.isValidChar] at valid
  unfold String.utf8EncodeChar Char.toNat bytesToWrite
  generalize c.val.toNat = n at valid
  dsimp only
  have h₁ : n >>> 6 = n / 64 := Nat.shiftRight_eq_div_pow n 6
  have h₂ : (n / 64) >>> 6 = n / 4096 := by
    rw [Nat.shiftRight_eq_div_pow, Nat.div_div_eq_div_mul]
  have h₃ : (n / 4096) >>> 6 = n / 262144 := by
    rw [Nat.shiftRight_eq_div_pow, Nat.div_div_eq_div_mul]
  by_cases one : n < 0x80
  · rw [if_pos one, if_pos (by omega)]
    simp [writeSequence, writeTrailing, firstByteMark]
  by_cases small : n < 0x800
  · rw [if_neg one, if_pos small, if_neg (by omega), if_pos (by omega)]
    simp only [writeSequence, writeTrailing, trailing_eq, h₁]
    exact ⟨congrArg (· :: _) (two (n / 64) (by omega)), rfl⟩
  by_cases bmp : n < 0x10000
  · rw [if_neg one, if_neg small, if_pos bmp, if_neg (by omega), if_neg (by omega),
      if_pos (by omega)]
    simp only [writeSequence, writeTrailing, trailing_eq, h₁, h₂]
    exact ⟨congrArg (· :: _) (three (n / 4096) (by omega)), rfl⟩
  · rw [if_neg one, if_neg small, if_neg bmp, if_pos (by omega), if_neg (by omega),
      if_neg (by omega), if_neg (by omega)]
    simp only [writeSequence, writeTrailing, trailing_eq, h₁, h₂, h₃]
    exact ⟨congrArg (· :: _) (four (n / 262144) (by omega)), rfl⟩

/-! ## Code points of UTF-16 -/

theorem isHighSurrogate_iff (u : UInt16) :
    isHighSurrogate u = true ↔ 0xD800 ≤ u.toNat ∧ u.toNat ≤ 0xDBFF := by
  simp [isHighSurrogate, UInt16.le_iff_toNat_le]

theorem isLowSurrogate_iff (u : UInt16) :
    isLowSurrogate u = true ↔ 0xDC00 ≤ u.toNat ∧ u.toNat ≤ 0xDFFF := by
  simp [isLowSurrogate, UInt16.le_iff_toNat_le]

/-- A surrogate without its partner is at the start. -/
inductive Unpaired : Text → Prop
  | low {u : UInt16} {source : Text} : isLowSurrogate u → Unpaired (u :: source)
  | last {u : UInt16} : isHighSurrogate u → Unpaired [u]
  | high {u v : UInt16} {source : Text} : isHighSurrogate u → ¬isLowSurrogate v →
      Unpaired (u :: v :: source)

/-- What the strict encoder reports at an unpaired surrogate. -/
def unpairedResult : Text → ConversionResult
  | [u] => if isHighSurrogate u then .sourceExhausted else .sourceIllegal
  | _ => .sourceIllegal

theorem toNat_ofNat_lt {n : Nat} (h : n < 0x10000) : n.toUInt16.toNat = n :=
  (UInt16.toNat_ofNat' (n := n)).trans (Nat.mod_eq_of_lt h)

/-- The units of a code point are one that is no surrogate, or a pair. -/
theorem utf16EncodeChar_cases (c : Char) :
    (∃ u : UInt16, utf16EncodeChar c = [u] ∧ isHighSurrogate u = false ∧
      isLowSurrogate u = false ∧ u.toNat = c.toNat) ∨
    (∃ u v : UInt16, utf16EncodeChar c = [u, v] ∧ isHighSurrogate u = true ∧
      isLowSurrogate v = true ∧
      (u.toNat - 0xD800) * 1024 + (v.toNat - 0xDC00) + 0x10000 = c.toNat) := by
  have valid : c.val.toNat.isValidChar := c.valid
  simp only [Nat.isValidChar] at valid
  unfold utf16EncodeChar unitsOf Char.toNat
  generalize c.val.toNat = n at valid
  split_ifs with bmp
  · have hn := toNat_ofNat_lt bmp
    refine .inl ⟨_, rfl, ?_, ?_, hn⟩
    · rw [Bool.eq_false_iff, Ne, isHighSurrogate_iff]
      omega
    · rw [Bool.eq_false_iff, Ne, isLowSurrogate_iff]
      omega
  · have hlead : (u16Lead n).toNat = n / 1024 + 0xD7C0 := toNat_ofNat_lt (by omega)
    have htrail : (u16Trail n).toNat = n % 1024 + 0xDC00 := toNat_ofNat_lt (by omega)
    refine .inr ⟨_, _, rfl, ?_, ?_, by omega⟩
    · rw [isHighSurrogate_iff]
      omega
    · rw [isLowSurrogate_iff]
      omega

theorem readUTF16_char (c : Char) (rest : Text) :
    readUTF16 true (utf16EncodeChar c ++ rest) = .ok (c.toNat, rest) := by
  rcases utf16EncodeChar_cases c with ⟨u, h, hhigh, hlow, hvalue⟩ | ⟨u, v, h, hhigh, hlow, hvalue⟩
  · rw [h, ← hvalue]
    simp [readUTF16, hhigh, hlow]
  · rw [h, ← hvalue]
    simp [readUTF16, hhigh, hlow, Nat.shiftLeft_eq]

variable {source rest : Text} {out : List UInt8}

theorem readUTF16_unpaired (h : Unpaired source) :
    readUTF16 true source = .error (unpairedResult source) := by
  cases h with
  | @low u source hlow =>
    have hhigh : isHighSurrogate u = false := by
      rw [isLowSurrogate_iff] at hlow
      rw [Bool.eq_false_iff, Ne, isHighSurrogate_iff]
      omega
    cases source <;> simp [readUTF16, unpairedResult, hhigh, hlow]
  | last hhigh => simp [readUTF16, unpairedResult, hhigh]
  | high hhigh hlow => simp [readUTF16, unpairedResult, hhigh, hlow]

theorem utf16EncodeChar_or_unpaired (hne : source ≠ []) :
    (∃ c rest, source = utf16EncodeChar c ++ rest) ∨ Unpaired source := by
  obtain ⟨u, source, rfl⟩ := List.exists_cons_of_ne_nil hne
  have hu := u.toNat_lt
  by_cases hhigh : isHighSurrogate u = true
  · cases source with
    | nil => exact .inr (.last hhigh)
    | cons v source =>
      by_cases hlow : isLowSurrogate v = true
      · left
        rw [isHighSurrogate_iff] at hhigh
        rw [isLowSurrogate_iff] at hlow
        obtain ⟨c, hc⟩ := char_of_toNat
          (n := (u.toNat - 0xD800) * 1024 + (v.toNat - 0xDC00) + 0x10000)
          (by simp only [Nat.isValidChar]; omega)
        refine ⟨c, source, ?_⟩
        rw [utf16EncodeChar, unitsOf, hc, if_neg (by omega)]
        have hlead : u16Lead ((u.toNat - 0xD800) * 1024 + (v.toNat - 0xDC00) + 0x10000) = u := by
          rw [← UInt16.toNat_inj, u16Lead, toNat_ofNat_lt (by omega)]
          omega
        have htrail : u16Trail ((u.toNat - 0xD800) * 1024 + (v.toNat - 0xDC00) + 0x10000) = v := by
          rw [← UInt16.toNat_inj, u16Trail, toNat_ofNat_lt (by omega)]
          omega
        rw [hlead, htrail]
        rfl
      · exact .inr (.high hhigh hlow)
  · by_cases hlow : isLowSurrogate u = true
    · exact .inr (.low hlow)
    · left
      rw [isHighSurrogate_iff] at hhigh
      rw [isLowSurrogate_iff] at hlow
      obtain ⟨c, hc⟩ := char_of_toNat (n := u.toNat) (by simp only [Nat.isValidChar]; omega)
      refine ⟨c, source, ?_⟩
      rw [utf16EncodeChar, unitsOf, hc, if_pos hu]
      simp

/-! ## The reader of code points -/

/-- Reads and encodes one code point, whatever the room for it. -/
def encodeNext (source : Text) : Except ConversionResult (List UInt8 × Text) := do
  let (ch, rest) ← readUTF16 true source
  let (count, ch) := bytesToWrite ch
  .ok (writeSequence count ch, rest)

theorem encodeNext_char (c : Char) (rest : Text) :
    encodeNext (utf16EncodeChar c ++ rest) = .ok (String.utf8EncodeChar c, rest) := by
  rw [← (writeSequence_char c).1, encodeNext, readUTF16_char]
  rfl

theorem encodeNext_unpaired (h : Unpaired source) :
    encodeNext source = .error (unpairedResult source) := by
  rw [encodeNext, readUTF16_unpaired h]
  rfl

theorem utf16EncodeChar_ne_nil (c : Char) : utf16EncodeChar c ≠ [] := by
  unfold utf16EncodeChar unitsOf
  split_ifs <;> simp

theorem encodeNext_eq_ok_iff {bytes : List UInt8} :
    encodeNext source = .ok (bytes, rest) ↔
      ∃ c, source = utf16EncodeChar c ++ rest ∧ bytes = String.utf8EncodeChar c := by
  constructor
  · intro h
    by_cases hne : source = []
    · subst hne
      cases h
    rcases utf16EncodeChar_or_unpaired hne with ⟨c, more, rfl⟩ | hunpaired
    · rw [encodeNext_char] at h
      cases h
      exact ⟨c, rfl, rfl⟩
    · rw [encodeNext_unpaired hunpaired] at h
      cases h
  · rintro ⟨c, rfl, rfl⟩
    exact encodeNext_char c rest

def encoder : Reader UInt16 UInt8 ConversionResult where
  next := encodeNext
  shorter := by
    intro source units rest h
    obtain ⟨c, rfl, -⟩ := encodeNext_eq_ok_iff.1 h
    have hpos := List.length_pos_iff.2 (utf16EncodeChar_ne_nil c)
    rw [List.length_append]
    omega

theorem encodeTurn_eq (targetEnd : Nat) (hne : source ≠ []) (target : List UInt8) :
    encodeTurn true targetEnd source target =
      encoder.turn .targetExhausted targetEnd source target := by
  rw [Reader.turn, show encoder.next source = encodeNext source from rfl]
  rcases utf16EncodeChar_or_unpaired hne with ⟨c, rest, rfl⟩ | hunpaired
  · obtain ⟨hbytes, hcount⟩ := writeSequence_char c
    have hpos := List.length_pos_iff.2 (sequence_of_char c).ne_nil
    have hturn : encodeTurn true targetEnd (utf16EncodeChar c ++ rest) target =
        if target.length + (bytesToWrite c.toNat).1 > targetEnd then .error .targetExhausted
        else .ok (rest, target ++
          writeSequence (bytesToWrite c.toNat).1 (bytesToWrite c.toNat).2) := by
      rw [encodeTurn, readUTF16_char]
      rfl
    rw [hturn, hbytes, hcount, encodeNext_char]
    dsimp only
    split_ifs <;> first | rfl | omega
  · rw [encodeTurn, readUTF16_unpaired hunpaired, encodeNext_unpaired hunpaired]
    rfl

theorem convertUTF16ToUTF8_eq (source : Text) (targetEnd : Nat) :
    convertUTF16ToUTF8 source targetEnd true =
      ((encoder.convert targetEnd source).1.result .conversionOK .targetExhausted,
        (encoder.convert targetEnd source).2) := by
  rw [convertUTF16ToUTF8, turnLoop_eq (R := encoder)
    (fun source target hne => encodeTurn_eq targetEnd hne target) (Nat.le_refl _)]
  rfl

theorem unpairedResult_ne (source : Text) :
    unpairedResult source ≠ .targetExhausted ∧ unpairedResult source ≠ .conversionOK := by
  unfold unpairedResult
  split
  · split_ifs <;> decide
  · decide

theorem encoder_next_ne_targetExhausted (source : Text) :
    encoder.next source ≠ .error .targetExhausted := by
  intro h
  by_cases hne : source = []
  · subst hne
    cases h
  rcases utf16EncodeChar_or_unpaired hne with ⟨c, rest, rfl⟩ | hunpaired
  · cases h.symm.trans (encodeNext_char c rest)
  · have hresult := (encodeNext_unpaired hunpaired).symm.trans h
    exact (unpairedResult_ne source).1 (Except.error.inj hresult)

theorem encoder_of_convert {targetEnd : Nat} {result : ConversionResult}
    (h : convertUTF16ToUTF8 source targetEnd true = (result, rest, out)) :
    ∃ stop, encoder.convert targetEnd source = (stop, rest, out) ∧
      stop.result .conversionOK .targetExhausted = result ∧
      (result = .targetExhausted ↔ stop = .full) := by
  rw [convertUTF16ToUTF8_eq] at h
  obtain ⟨stop, left, out', hconvert⟩ :
    ∃ stop left out', encoder.convert targetEnd source = (stop, left, out') := ⟨_, _, _, rfl⟩
  rw [hconvert, Prod.mk.injEq, Prod.mk.injEq] at h
  obtain ⟨rfl, rfl, rfl⟩ := h
  exact ⟨stop, hconvert, rfl,
    Reader.result_eq_full_iff encoder_next_ne_targetExhausted (by decide) hconvert⟩

/-! ## Whole strings -/

/-- Every surrogate stands in a pair, the high one first. -/
def isPaired : Text → Bool
  | [] => true
  | [u] => !isHighSurrogate u && !isLowSurrogate u
  | u :: v :: source =>
    if isHighSurrogate u then isLowSurrogate v && isPaired source
    else !isLowSurrogate u && isPaired (v :: source)

theorem items_utf16 (cs : List Char) (rest : Text) :
    encoder.Items (cs.flatMap utf16EncodeChar ++ rest) (cs.flatMap String.utf8EncodeChar) rest := by
  induction cs with
  | nil => exact .refl rest
  | cons c cs ih =>
    rw [List.flatMap_cons, List.append_assoc, List.flatMap_cons]
    exact .step (by simp [utf16EncodeChar_ne_nil]) (encodeNext_char c _) ih

/-- A string is code points up to its first unpaired surrogate. -/
theorem exists_codePoints (source : Text) :
    ∃ (cs : List Char) (rest : Text),
      source = cs.flatMap utf16EncodeChar ++ rest ∧ (rest = [] ∨ Unpaired rest) := by
  induction hlength : source.length using Nat.strongRecOn generalizing source with
  | ind length ih =>
    by_cases hne : source = []
    · exact ⟨[], [], by simpa using hne, .inl rfl⟩
    rcases utf16EncodeChar_or_unpaired hne with ⟨c, more, rfl⟩ | hunpaired
    · have hpos := List.length_pos_iff.2 (utf16EncodeChar_ne_nil c)
      rw [List.length_append] at hlength
      obtain ⟨cs, rest, hsource, hrest⟩ := ih more.length (by omega) more rfl
      refine ⟨c :: cs, rest, ?_, hrest⟩
      rw [List.flatMap_cons, List.append_assoc, ← hsource]
    · exact ⟨[], source, rfl, .inr hunpaired⟩

theorem isPaired_char (c : Char) (source : Text) :
    isPaired (utf16EncodeChar c ++ source) = isPaired source := by
  rcases utf16EncodeChar_cases c with ⟨u, h, hhigh, hlow, -⟩ | ⟨u, v, h, hhigh, hlow, -⟩
  · cases source <;> simp [h, isPaired, hhigh, hlow]
  · simp [h, isPaired, hhigh, hlow]

theorem Unpaired.not_isPaired (h : Unpaired source) : isPaired source = false := by
  cases h with
  | @low u source hlow =>
    have hhigh : isHighSurrogate u = false := by
      rw [isLowSurrogate_iff] at hlow
      rw [Bool.eq_false_iff, Ne, isHighSurrogate_iff]
      omega
    cases source <;> simp [isPaired, hhigh, hlow]
  | last hhigh => simp [isPaired, hhigh]
  | high hhigh hlow => simp [isPaired, hhigh, hlow]

theorem isPaired_codePoints {cs : List Char} (hrest : rest = [] ∨ Unpaired rest) :
    isPaired (cs.flatMap utf16EncodeChar ++ rest) = true ↔ rest = [] := by
  induction cs with
  | nil =>
    rcases hrest with rfl | hunpaired
    · simp [isPaired]
    · rw [List.flatMap_nil, List.nil_append, hunpaired.not_isPaired]
      cases hunpaired <;> simp
  | cons c cs ih => rw [List.flatMap_cons, List.append_assoc, isPaired_char, ih]

theorem Unpaired.ne_nil (h : Unpaired source) : source ≠ [] := by
  cases h <;> simp

/-- What has been read of a string is the encoding of its first code points. -/
theorem items_split {cs : List Char} {left : Text} (h : encoder.Items source out left)
    (hsource : source = cs.flatMap utf16EncodeChar ++ rest) (hrest : rest = [] ∨ Unpaired rest) :
    ∃ cs₁ cs₂, cs = cs₁ ++ cs₂ ∧ out = cs₁.flatMap String.utf8EncodeChar ∧
      left = cs₂.flatMap utf16EncodeChar ++ rest := by
  induction h generalizing cs with
  | refl source => exact ⟨[], cs, rfl, rfl, hsource⟩
  | @step source more left units out hne hnext _ ih =>
    cases cs with
    | nil =>
      rw [List.flatMap_nil, List.nil_append] at hsource
      rcases hrest with rfl | hunpaired
      · exact absurd hsource hne
      · rw [hsource] at hnext
        cases (encodeNext_unpaired hunpaired).symm.trans hnext
    | cons c cs =>
      rw [List.flatMap_cons, List.append_assoc] at hsource
      rw [hsource] at hnext
      obtain ⟨rfl, rfl⟩ := Prod.mk.inj (Except.ok.inj ((encodeNext_char c _).symm.trans hnext))
      obtain ⟨cs₁, cs₂, rfl, rfl, rfl⟩ := ih rfl
      exact ⟨c :: cs₁, cs₂, rfl, rfl, rfl⟩

theorem convertUTF16ToUTF8Pieces_eq (targetEnds : List Nat) (source : Text) :
    convertUTF16ToUTF8Pieces targetEnds source =
      ((encoder.convertPieces targetEnds source).1.result .conversionOK .targetExhausted,
        (encoder.convertPieces targetEnds source).2) := by
  induction targetEnds generalizing source with
  | nil => rfl
  | cons targetEnd targetEnds ih =>
    obtain ⟨result, rest, out, h⟩ :
      ∃ result rest out, convertUTF16ToUTF8 source targetEnd true = (result, rest, out) :=
      ⟨_, _, _, rfl⟩
    obtain ⟨stop, hconvert, rfl, hfull⟩ := encoder_of_convert h
    rw [convertUTF16ToUTF8Pieces, Reader.convertPieces, h, hconvert]
    cases stop with
    | full =>
      simp only [Stop.result, ih, Reader.prepend]
    | done => rfl
    | failed result =>
      have hne : result ≠ .targetExhausted := by simpa [Stop.result] using hfull
      cases result <;> first | rfl | exact absurd rfl hne

theorem ends_of_unpaired (h : rest = [] ∨ Unpaired rest) :
    ∃ stop : Stop ConversionResult, encoder.Ends stop rest ∧
      stop.result .conversionOK .targetExhausted =
        if rest = [] then .conversionOK else unpairedResult rest := by
  rcases h with rfl | hunpaired
  · exact ⟨.done, .done, rfl⟩
  · refine ⟨_, .failed hunpaired.ne_nil (encodeNext_unpaired hunpaired), ?_⟩
    rw [if_neg hunpaired.ne_nil]
    rfl

/-- A full target leaves the source at the first code point that was not written. -/
theorem codePoints_of_targetExhausted {cs : List Char} {left : Text} {targetEnd : Nat}
    (hrest : rest = [] ∨ Unpaired rest)
    (h : convertUTF16ToUTF8 (cs.flatMap utf16EncodeChar ++ rest) targetEnd true =
      (.targetExhausted, left, out)) :
    ∃ cs₁ c cs₂, cs = cs₁ ++ c :: cs₂ ∧ out = cs₁.flatMap String.utf8EncodeChar ∧
      left = (c :: cs₂).flatMap utf16EncodeChar ++ rest ∧ out.length ≤ targetEnd ∧
      targetEnd < out.length + (String.utf8EncodeChar c).length := by
  obtain ⟨stop, hconvert, -, hfull⟩ := encoder_of_convert h
  obtain rfl := hfull.1 rfl
  obtain ⟨hitems, hle, hstop⟩ :=
    Reader.convert_spec (R := encoder) targetEnd (cs.flatMap utf16EncodeChar ++ rest)
  rw [hconvert] at hitems hle hstop
  obtain ⟨cs₁, cs₂, rfl, hout, hleft⟩ := items_split hitems rfl hrest
  rcases hstop with hends | ⟨-, hne, units, more, hnext, hlarge⟩
  · exact absurd rfl hends.ne_full
  cases cs₂ with
  | nil =>
    obtain rfl : left = rest := hleft
    rcases hrest with rfl | hunpaired
    · exact absurd rfl hne
    · cases (encodeNext_unpaired hunpaired).symm.trans hnext
  | cons c cs₂ =>
    refine ⟨cs₁, c, cs₂, rfl, hout, hleft, hle, ?_⟩
    have hleft' : left = utf16EncodeChar c ++ (cs₂.flatMap utf16EncodeChar ++ rest) := by
      rw [show left = _ from hleft, List.flatMap_cons, List.append_assoc]
    have hnext' := encodeNext_char c (cs₂.flatMap utf16EncodeChar ++ rest)
    rw [← hleft'] at hnext'
    obtain ⟨rfl, -⟩ := Prod.mk.inj (Except.ok.inj (hnext'.symm.trans hnext))
    exact hlarge

/-- Converting piece by piece writes what one call writes. -/
theorem convertUTF16ToUTF8_of_pieces {targetEnds : List Nat} {left : Text}
    {result : ConversionResult} {large : Nat}
    (hpieces : convertUTF16ToUTF8Pieces targetEnds source = (result, left, out))
    (hresult : result ≠ .targetExhausted)
    (hlarge : (convertUTF16ToUTF8 source large true).1 ≠ .targetExhausted) :
    convertUTF16ToUTF8 source large true = (result, left, out) := by
  rw [convertUTF16ToUTF8Pieces_eq] at hpieces
  obtain ⟨stop, left', out', h⟩ :
    ∃ stop left' out', encoder.convertPieces targetEnds source = (stop, left', out') :=
    ⟨_, _, _, rfl⟩
  rw [h, Prod.mk.injEq, Prod.mk.injEq] at hpieces
  obtain ⟨rfl, rfl, rfl⟩ := hpieces
  have hstop : stop ≠ .full := by
    rintro rfl
    exact hresult rfl
  obtain ⟨stop₂, hconvert₂, -, hfull₂⟩ :=
    encoder_of_convert (show convertUTF16ToUTF8 source large true = (_, _, _) from rfl)
  have hwhole := Reader.convert_eq_convertPieces h hstop
    (by rw [hconvert₂]; exact mt hfull₂.2 hlarge)
  rw [convertUTF16ToUTF8_eq, hwhole]

/-- Strict encoding writes the code points in their shortest form up to the first unpaired
surrogate, which it reports; a full target leaves the source at the first code point not written,
so that pieces make up the whole; and decoding gives a paired string back. -/
theorem convertUTF16ToUTF8_strict (source : Text) :
    ∃ (cs : List Char) (rest : Text),
      source = cs.flatMap utf16EncodeChar ++ rest ∧ (rest = [] ∨ Unpaired rest) ∧
      (isPaired source = true ↔ rest = []) ∧
      (∀ c ∈ cs, WellFormed (String.utf8EncodeChar c) ∧
        (String.utf8EncodeChar c).length =
          if c.toNat < 0x80 then 1 else if c.toNat < 0x800 then 2
          else if c.toNat < 0x10000 then 3 else 4) ∧
      (∀ targetEnd, (cs.flatMap String.utf8EncodeChar).length ≤ targetEnd →
        convertUTF16ToUTF8 source targetEnd true =
          (if rest = [] then .conversionOK else unpairedResult rest, rest,
            cs.flatMap String.utf8EncodeChar)) ∧
      (∀ targetEnd left out,
        convertUTF16ToUTF8 source targetEnd true = (.targetExhausted, left, out) →
        ∃ cs₁ c cs₂, cs = cs₁ ++ c :: cs₂ ∧ out = cs₁.flatMap String.utf8EncodeChar ∧
          left = (c :: cs₂).flatMap utf16EncodeChar ++ rest ∧ out.length ≤ targetEnd ∧
          targetEnd < out.length + (String.utf8EncodeChar c).length) ∧
      (∀ targetEnds result left out large,
        convertUTF16ToUTF8Pieces targetEnds source = (result, left, out) →
        result ≠ .targetExhausted →
        (convertUTF16ToUTF8 source large true).1 ≠ .targetExhausted →
        convertUTF16ToUTF8 source large true = (result, left, out)) ∧
      (rest = [] → ∀ targetEnd, source.length ≤ targetEnd →
        convertUTF8ToUTF16 (cs.flatMap String.utf8EncodeChar) targetEnd true =
          (.conversionOK, [], source)) := by
  obtain ⟨cs, rest, rfl, hrest⟩ := exists_codePoints source
  refine ⟨cs, rest, rfl, hrest, isPaired_codePoints hrest, ?_, ?_, ?_, ?_, ?_⟩
  · intro c _
    exact ⟨wellFormed_iff.2 ⟨c, rfl⟩, length_utf8EncodeChar c⟩
  · intro targetEnd hroom
    obtain ⟨stop, hends, hresult⟩ := ends_of_unpaired hrest
    rw [convertUTF16ToUTF8_eq, Reader.convert_eq_of_ends (items_utf16 cs rest) hends hroom,
      ← hresult]
  · exact fun targetEnd left out h => codePoints_of_targetExhausted hrest h
  · exact fun targetEnds result left out large h hresult hlarge =>
      convertUTF16ToUTF8_of_pieces h hresult hlarge
  · rintro rfl targetEnd hroom
    rw [List.append_nil] at hroom ⊢
    have hdecode := items_encode cs []
    rw [List.append_nil] at hdecode
    rw [convertUTF8ToUTF16_eq, Reader.convert_eq_of_ends hdecode .done hroom]
    rfl

/-! ## Replacing unpaired surrogates -/

def putUTF8Triple (ch : UInt16) : List UInt8 :=
  [UInt8.ofNat (((ch.toNat >>> 12) &&& 0x0F) ||| 0xE0),
    UInt8.ofNat (((ch.toNat >>> 6) &&& 0x3F) ||| 0x80), UInt8.ofNat ((ch.toNat &&& 0x3F) ||| 0x80)]

/-- The loop of `utf8Impl` in the mode `StrictConversionReplacingUnpairedSurrogatesWithFFFD`, with
the room that is left in the buffer. A result of `none` is a buffer without room. -/
def replacingLoop : Nat → Text → Nat → Option (List UInt8)
  | 0, characters, _ => if characters = [] then some [] else none
  | turns + 1, characters, room =>
    if characters = [] then some []
    else
      match convertUTF16ToUTF8 characters room true with
      | (.targetExhausted, _, _) => none
      | (.conversionOK, rest, out) => (replacingLoop turns rest (room - out.length)).map (out ++ ·)
      | (_, rest, out) =>
        if out.length + 3 ≤ room then
          (replacingLoop turns rest.tail (room - out.length - 3)).map
            (out ++ putUTF8Triple replacementCharacter ++ ·)
        else none

/-- The characters for which three bytes each can be counted in an `unsigned`. -/
def maxLength : Nat := (2 ^ 32 - 1) / 3

/-- `utf8ForCharacters` in this mode, whose buffer has three bytes for each character. The null
string is `some none`. -/
def utf8Replacing (characters : Text) : Option (Option (List UInt8)) :=
  if characters = [] then some (some [])
  else if maxLength < characters.length then some none
  else (replacingLoop characters.length characters (characters.length * 3)).map some

/-- The code points of a string, with U+FFFD for every surrogate without its partner. -/
inductive Repaired : Text → List Char → Prop
  | nil : Repaired [] []
  | char (c : Char) {rest : Text} {cs : List Char} : Repaired rest cs →
      Repaired (utf16EncodeChar c ++ rest) (c :: cs)
  | unpaired {u : UInt16} {rest : Text} {cs : List Char} : Unpaired (u :: rest) →
      Repaired rest cs → Repaired (u :: rest) ('\uFFFD' :: cs)

theorem length_utf8_le (cs : List Char) :
    (cs.flatMap String.utf8EncodeChar).length ≤ 3 * (cs.flatMap utf16EncodeChar).length := by
  induction cs with
  | nil => exact Nat.le_refl _
  | cons c cs ih =>
    have hc : (String.utf8EncodeChar c).length ≤ 3 * (utf16EncodeChar c).length := by
      rw [length_utf8EncodeChar, utf16EncodeChar, unitsOf]
      split_ifs <;> simp
    rw [List.flatMap_cons, List.flatMap_cons, List.length_append, List.length_append]
    omega

theorem repaired_append (cs : List Char) {cs' : List Char} (h : Repaired rest cs') :
    Repaired (cs.flatMap utf16EncodeChar ++ rest) (cs ++ cs') := by
  induction cs with
  | nil => exact h
  | cons c cs ih =>
    rw [List.flatMap_cons, List.append_assoc]
    exact .char c ih

/-- The buffer of three bytes for each character is always large enough, and the bytes are the UTF-8
of the string in which unpaired surrogates are replaced. Strings that are too long give no bytes. -/
theorem utf8Replacing_eq (characters : Text) :
    ∃ cs, Repaired characters cs ∧ utf8Replacing characters =
      some (if characters.length ≤ maxLength then some (cs.flatMap String.utf8EncodeChar)
        else none) := by
  have loop {turns room : Nat} {characters : Text} (hturns : characters.length ≤ turns)
      (hroom : characters.length * 3 ≤ room) : ∃ cs, Repaired characters cs ∧
        replacingLoop turns characters room = some (cs.flatMap String.utf8EncodeChar) := by
    induction turns generalizing characters room with
    | zero =>
      obtain rfl := List.length_eq_zero_iff.mp (Nat.le_zero.mp hturns)
      exact ⟨[], .nil, rfl⟩
    | succ turns ih =>
      rw [replacingLoop]
      split_ifs with hempty
      · subst hempty
        exact ⟨[], .nil, rfl⟩
      obtain ⟨cs, rest, rfl, hrest⟩ := exists_codePoints characters
      have hlength := length_utf8_le cs
      rw [List.length_append] at hturns hroom
      obtain ⟨stop, hends, hstop⟩ := ends_of_unpaired hrest
      rw [convertUTF16ToUTF8_eq,
        Reader.convert_eq_of_ends (items_utf16 cs rest) hends (by omega), hstop]
      rcases hrest with rfl | hunpaired
      · refine ⟨cs ++ [], repaired_append cs .nil, ?_⟩
        cases turns <;> simp [replacingLoop]
      · obtain ⟨u, rest, rfl⟩ := List.exists_cons_of_ne_nil hunpaired.ne_nil
        rw [List.length_cons] at hturns hroom
        obtain ⟨cs', hrepaired, heq⟩ :=
          @ih (room - (cs.flatMap String.utf8EncodeChar).length - 3) rest (by omega) (by omega)
        refine ⟨cs ++ '\uFFFD' :: cs', repaired_append cs (.unpaired hunpaired hrepaired), ?_⟩
        have htriple : putUTF8Triple replacementCharacter = String.utf8EncodeChar '\uFFFD' := by
          decide
        obtain ⟨hfull, hok⟩ := unpairedResult_ne (u :: rest)
        rw [if_neg (List.cons_ne_nil _ _)]
        split
        · exact absurd ‹_› (by simp [hfull])
        · exact absurd ‹_› (by simp [hok])
        · rename_i h
          obtain ⟨-, rfl, rfl⟩ := h
          rw [if_pos (by omega), List.tail_cons, heq, htriple]
          simp
  obtain ⟨cs, hrepaired, heq⟩ := loop (Nat.le_refl characters.length) (Nat.le_refl _)
  refine ⟨cs, hrepaired, ?_⟩
  rw [utf8Replacing]
  by_cases hempty : characters = []
  · subst hempty
    rw [if_pos rfl, if_pos (show [].length ≤ maxLength from Nat.zero_le _), ← heq]
    rfl
  · rw [if_neg hempty, heq]
    split_ifs <;> first | rfl | omega

end Odyssey.WTF.UTF8
