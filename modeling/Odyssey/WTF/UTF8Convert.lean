import Odyssey.WTF.UTF8

/-!
# `convertUTF8ToUTF16` and its pointers

The decoder says where in the source it stopped. In strict mode it is a conversion of one sequence
after the other into a bounded target. It accepts well-formed UTF-8 and, because `isLegalUTF8` has
no lower bound for the second byte after `0xED` and `0xF4`, the sequences of `Lax`.
-/
namespace Odyssey.WTF.UTF8

open Lib (Reader Stop turnLoop_eq)

/-! ## Well-formed sequences -/

/-- The byte is between the bounds. -/
def Within (low high : Nat) (b : UInt8) : Prop := low ≤ b.toNat ∧ b.toNat ≤ high

/-- The well-formed byte sequences of one code point, row by row of the Unicode table 3-7. -/
inductive WellFormed : List UInt8 → Prop
  | ascii {a : UInt8} : Within 0x00 0x7F a → WellFormed [a]
  | two {a b : UInt8} : Within 0xC2 0xDF a → Within 0x80 0xBF b → WellFormed [a, b]
  | e0 {a b c : UInt8} : Within 0xE0 0xE0 a → Within 0xA0 0xBF b → Within 0x80 0xBF c →
      WellFormed [a, b, c]
  | e1 {a b c : UInt8} : Within 0xE1 0xEC a → Within 0x80 0xBF b → Within 0x80 0xBF c →
      WellFormed [a, b, c]
  | ed {a b c : UInt8} : Within 0xED 0xED a → Within 0x80 0x9F b → Within 0x80 0xBF c →
      WellFormed [a, b, c]
  | ee {a b c : UInt8} : Within 0xEE 0xEF a → Within 0x80 0xBF b → Within 0x80 0xBF c →
      WellFormed [a, b, c]
  | f0 {a b c d : UInt8} : Within 0xF0 0xF0 a → Within 0x90 0xBF b → Within 0x80 0xBF c →
      Within 0x80 0xBF d → WellFormed [a, b, c, d]
  | f1 {a b c d : UInt8} : Within 0xF1 0xF3 a → Within 0x80 0xBF b → Within 0x80 0xBF c →
      Within 0x80 0xBF d → WellFormed [a, b, c, d]
  | f4 {a b c d : UInt8} : Within 0xF4 0xF4 a → Within 0x80 0x8F b → Within 0x80 0xBF c →
      Within 0x80 0xBF d → WellFormed [a, b, c, d]

variable {l rest source : List UInt8} {n : Nat}

theorem WellFormed.sequence (h : WellFormed l) : ∃ n, Sequence l n := by
  refine ⟨_, ?_, ?_, rfl⟩
  · cases h <;> simp only [Within] at * <;>
      simp only [List.headD_cons, inlineUTF8SequenceLength_eq, List.length_cons,
        List.length_nil] <;>
      split_ifs <;> omega
  · cases h <;> simp only [Within] at * <;>
      simp [isLegalUTF8, isLegalFirst_iff, isLegalSecond_iff, isTrailing_iff] <;> omega

theorem WellFormed.not_lax (h : WellFormed l) : ¬Lax l n := by
  intro hlax
  cases hlax with
  | three a b ha =>
    cases h <;> simp_all [Within]
    omega
  | four a b c ha =>
    cases h <;> simp_all [Within]
    omega

/-- What the decoder accepts as one sequence is well-formed or lax. -/
theorem Sequence.wellFormed_or_lax (h : Sequence l n) :
    WellFormed l ∨ ∃ n, Lax l n := by
  have hlength := h.length
  have hlegal := h.legal
  rcases l with _ | ⟨a, _ | ⟨b, _ | ⟨d, _ | ⟨e, _ | ⟨f, l⟩⟩⟩⟩⟩
  · exact absurd hlegal (by simp [isLegalUTF8])
  all_goals
    simp only [List.headD_cons, inlineUTF8SequenceLength_eq, List.length_cons,
      List.length_nil] at hlength
    simp only [isLegalUTF8, List.length_cons, List.length_nil, List.getD_cons_zero,
      List.getD_cons_succ, Bool.and_eq_true, isLegalFirst_iff, isLegalSecond_iff] at hlegal
  · have ha : a.toNat < 0x80 := by split_ifs at hlength <;> omega
    exact .inl (.ascii ⟨by omega, by omega⟩)
  · have ha : 0xC2 ≤ a.toNat ∧ a.toNat < 0xE0 := by split_ifs at hlength <;> omega
    exact .inl (.two ⟨ha.1, by omega⟩ ⟨by omega, by omega⟩)
  · have ha : 0xE0 ≤ a.toNat ∧ a.toNat < 0xF0 := by split_ifs at hlength <;> omega
    obtain ⟨⟨hd, second⟩, -⟩ := hlegal
    by_cases below : b.toNat < 0x80
    · rw [eq_ofNat (show a.toNat = 0xED by omega)]
      exact .inr ⟨_, .three b d below hd⟩
    rw [isTrailing_iff] at hd
    left
    rcases Nat.lt_or_ge a.toNat 0xE1 with h₁ | h₁
    · exact .e0 ⟨ha.1, by omega⟩ ⟨by omega, by omega⟩ hd
    rcases Nat.lt_or_ge a.toNat 0xED with h₂ | h₂
    · exact .e1 ⟨h₁, by omega⟩ ⟨by omega, by omega⟩ hd
    rcases Nat.lt_or_ge a.toNat 0xEE with h₃ | h₃
    · exact .ed ⟨h₂, by omega⟩ ⟨by omega, by omega⟩ hd
    · exact .ee ⟨h₃, by omega⟩ ⟨by omega, by omega⟩ hd
  · have ha : 0xF0 ≤ a.toNat := by split_ifs at hlength <;> omega
    obtain ⟨⟨⟨he, hd⟩, second⟩, first⟩ := hlegal
    by_cases below : b.toNat < 0x80
    · rw [eq_ofNat (show a.toNat = 0xF4 by omega)]
      exact .inr ⟨_, .four b d e below hd he⟩
    rw [isTrailing_iff] at hd he
    left
    rcases Nat.lt_or_ge a.toNat 0xF1 with h₁ | h₁
    · exact .f0 ⟨ha, by omega⟩ ⟨by omega, by omega⟩ hd he
    rcases Nat.lt_or_ge a.toNat 0xF4 with h₂ | h₂
    · exact .f1 ⟨h₁, by omega⟩ ⟨by omega, by omega⟩ hd he
    · exact .f4 ⟨h₂, by omega⟩ ⟨by omega, by omega⟩ hd he
  · exact absurd hlegal (by simp)

theorem wellFormed_iff :
    WellFormed l ↔ ∃ c : Char, l = String.utf8EncodeChar c := by
  constructor
  · intro h
    obtain ⟨n, hn⟩ := h.sequence
    rcases hn.cases with ⟨c, hc, -⟩ | hlax
    · exact ⟨c, hc⟩
    · exact absurd hlax h.not_lax
  · rintro ⟨c, rfl⟩
    rcases (sequence_of_char c).wellFormed_or_lax with h | ⟨n, hlax⟩
    · exact h
    · exact absurd rfl (hlax.ne_utf8EncodeChar c)

/-- The number of bytes of the shortest form. -/
theorem length_utf8EncodeChar (c : Char) :
    (String.utf8EncodeChar c).length =
      if c.toNat < 0x80 then 1 else if c.toNat < 0x800 then 2
      else if c.toNat < 0x10000 then 3 else 4 := by
  unfold String.utf8EncodeChar Char.toNat
  dsimp only
  split_ifs <;> first | rfl | omega

/-! ## The reader of sequences -/

/-- Reads one sequence, whatever the room for it. -/
def decodeNext (source : List UInt8) : Except ConversionResult (Text × List UInt8) :=
  let length := inlineUTF8SequenceLength (source.headD 0)
  if source.length < length then .error .sourceExhausted
  else if !isLegalUTF8 source length then .error .sourceIllegal
  else .ok (unitsOf (readUTF8Sequence source length), source.drop length)

theorem Sequence.headD_append (h : Sequence l n) (rest : List UInt8) :
    (l ++ rest).headD 0 = l.headD 0 := by
  obtain ⟨a, l, rfl⟩ := List.exists_cons_of_ne_nil h.ne_nil
  rfl

theorem Sequence.read_append (h : Sequence l n) (rest : List UInt8) :
    readUTF8Sequence (l ++ rest) l.length = n := by
  rw [← h.read, readUTF8Sequence, readUTF8Sequence, List.take_left, List.take_length]

theorem decodeNext_eq_ok_iff {units : Text} :
    decodeNext source = .ok (units, rest) ↔
      ∃ l n, source = l ++ rest ∧ Sequence l n ∧ units = unitsOf n := by
  constructor
  · intro h
    unfold decodeNext at h
    dsimp only at h
    generalize hlength : inlineUTF8SequenceLength (source.headD 0) = length at h
    split_ifs at h with short illegal
    have hs := sequence_take hlength (by omega) (by simpa using illegal)
    cases h
    exact ⟨_, _, (List.take_append_drop length source).symm, hs, rfl⟩
  · rintro ⟨l, n, rfl, h, rfl⟩
    simp only [decodeNext, h.headD_append, h.length, h.read_append, isLegalUTF8_append, h.legal,
      List.length_append, List.drop_left]
    rw [if_neg (by omega), if_neg (by simp)]

theorem decodeNext_ne_targetExhausted (source : List UInt8) :
    decodeNext source ≠ .error .targetExhausted ∧ decodeNext source ≠ .error .conversionOK := by
  unfold decodeNext
  dsimp only
  split_ifs <;> simp

def decoder : Reader UInt8 UInt16 ConversionResult where
  next := decodeNext
  shorter := by
    intro source units rest h
    obtain ⟨l, n, rfl, hl, -⟩ := decodeNext_eq_ok_iff.1 h
    have hpos := List.length_pos_iff.2 hl.ne_nil
    rw [List.length_append]
    omega

/-- A turn of the loop reads a sequence and writes it if it fits. -/
theorem convertNext_eq (targetEnd : Nat) (source : List UInt8) (target : Text) :
    convertNext true targetEnd source target =
      decoder.turn .targetExhausted targetEnd source target := by
  rw [Reader.turn, show decoder.next source = decodeNext source from rfl]
  unfold convertNext decodeNext
  dsimp only
  generalize hlength : inlineUTF8SequenceLength (source.headD 0) = length
  by_cases short : source.length < length
  · rw [if_pos short, if_pos short]
  by_cases illegal : isLegalUTF8 source length = true
  swap
  · rw [if_neg short, if_neg short, if_pos (by simpa using illegal),
      if_pos (by simpa using illegal)]
  rw [if_neg short, if_neg short]
  simp only [illegal, Bool.not_true, Bool.false_eq_true, if_false]
  have valid := (sequence_take hlength (by omega) illegal).isValidChar
  generalize readUTF8Sequence source length = n at valid ⊢
  simp only [Nat.isValidChar] at valid
  by_cases bmp : n < 0x10000
  · rw [if_pos (show isBMP n = true by simpa [isBMP] using Nat.le_of_lt_succ bmp),
      if_neg (show ¬isSurrogate n = true by simp [isSurrogate]; omega), unitsOf, if_pos bmp,
      List.length_singleton]
    split_ifs <;> first | rfl | omega
  · rw [if_neg (show ¬isBMP n = true by simp [isBMP]; omega),
      if_pos (show isSupplementary n = true by simp [isSupplementary]; omega), unitsOf,
      if_neg bmp, List.length_cons, List.length_singleton]
    split_ifs <;> first | rfl | omega

theorem convertUTF8ToUTF16_eq (source : List UInt8) (targetEnd : Nat) :
    convertUTF8ToUTF16 source targetEnd true =
      ((decoder.convert targetEnd source).1.result .conversionOK .targetExhausted,
        (decoder.convert targetEnd source).2) := by
  rw [convertUTF8ToUTF16, turnLoop_eq (R := decoder)
    (fun source target _ => convertNext_eq targetEnd source target) (Nat.le_refl _)]
  rfl

theorem decoder_of_convert {targetEnd : Nat} {out : Text} {result : ConversionResult}
    (h : convertUTF8ToUTF16 source targetEnd true = (result, rest, out)) :
    ∃ stop, decoder.convert targetEnd source = (stop, rest, out) ∧
      stop.result .conversionOK .targetExhausted = result ∧
      (result = .targetExhausted ↔ stop = .full) := by
  rw [convertUTF8ToUTF16_eq] at h
  obtain ⟨stop, left, out', hconvert⟩ :
    ∃ stop left out', decoder.convert targetEnd source = (stop, left, out') := ⟨_, _, _, rfl⟩
  rw [hconvert, Prod.mk.injEq, Prod.mk.injEq] at h
  obtain ⟨rfl, rfl, rfl⟩ := h
  exact ⟨stop, hconvert, rfl, Reader.result_eq_full_iff
    (fun source => (decodeNext_ne_targetExhausted source).1) (by decide) hconvert⟩

/-! ## What strict decoding accepts -/

/-- The bytes are the encoding of `cs` followed by bytes that begin with no well-formed sequence. -/
structure Splits (source : List UInt8) (cs : List Char) (rest : List UInt8) : Prop where
  eq : source = cs.flatMap String.utf8EncodeChar ++ rest
  stops : ∀ l more, rest = l ++ more → ¬WellFormed l

/-- After well-formed sequences comes one of those that only the decoder accepts. -/
def Strays (source : List UInt8) : Prop :=
  ∃ (cs : List Char) (l : List UInt8) (n : Nat) (rest : List UInt8),
    source = cs.flatMap String.utf8EncodeChar ++ (l ++ rest) ∧ Lax l n

theorem decoder_next_of_sequence (h : Sequence l n) (rest : List UInt8) :
    decoder.next (l ++ rest) = .ok (unitsOf n, rest) :=
  decodeNext_eq_ok_iff.2 ⟨l, n, rfl, h, rfl⟩

theorem items_of_sequence {left : List UInt8} {out : Text} (h : Sequence l n)
    (hitems : decoder.Items rest out left) :
    decoder.Items (l ++ rest) (unitsOf n ++ out) left :=
  .step (by simp [h.ne_nil]) (decoder_next_of_sequence h rest) hitems

theorem items_encode (cs : List Char) (rest : List UInt8) :
    decoder.Items (cs.flatMap String.utf8EncodeChar ++ rest) (cs.flatMap utf16EncodeChar) rest := by
  induction cs with
  | nil => exact .refl rest
  | cons c cs ih =>
    rw [List.flatMap_cons, List.append_assoc, List.flatMap_cons]
    exact items_of_sequence (sequence_of_char c) ih

/-- Every byte string begins with a longest well-formed part. -/
theorem exists_splits (source : List UInt8) : ∃ cs rest, Splits source cs rest := by
  induction hlength : source.length using Nat.strongRecOn generalizing source with
  | ind length ih =>
    by_cases h : ∃ l more, source = l ++ more ∧ WellFormed l
    · obtain ⟨l, more, rfl, hl⟩ := h
      obtain ⟨c, rfl⟩ := wellFormed_iff.1 hl
      have hpos := List.length_pos_iff.2 (sequence_of_char c).ne_nil
      rw [List.length_append] at hlength
      obtain ⟨cs, rest, hsplits⟩ := ih more.length (by omega) more rfl
      refine ⟨c :: cs, rest, ?_, hsplits.stops⟩
      rw [List.flatMap_cons, List.append_assoc, ← hsplits.eq]
    · exact ⟨[], source, rfl, fun l more hsource hl => h ⟨l, more, hsource, hl⟩⟩

/-- The longest well-formed part ends where a lax sequence begins. -/
theorem Splits.of_lax {cs cs' : List Char} {more : List UInt8}
    (h : Splits (cs'.flatMap String.utf8EncodeChar ++ (l ++ more)) cs rest) (hlax : Lax l n) :
    rest = l ++ more := by
  obtain ⟨heq, hstops⟩ := h
  have hl := sequence_of_lax hlax
  induction cs generalizing cs' with
  | nil =>
    cases cs' with
    | nil => exact heq.symm
    | cons c' cs' =>
      rw [List.flatMap_cons, List.append_assoc, List.flatMap_nil, List.nil_append] at heq
      exact absurd (wellFormed_iff.2 ⟨c', rfl⟩) (hstops _ _ heq.symm)
  | cons c cs ih =>
    rw [List.flatMap_cons, List.append_assoc] at heq
    cases cs' with
    | nil =>
      rw [List.flatMap_nil, List.nil_append] at heq
      exact absurd (hl.append_inj (sequence_of_char c) heq).1 (hlax.ne_utf8EncodeChar c)
    | cons c' cs' =>
      rw [List.flatMap_cons, List.append_assoc] at heq
      exact ih ((sequence_of_char c').append_inj (sequence_of_char c) heq).2

/-- Where neither a well-formed nor a lax sequence begins, the decoder stops. -/
theorem Splits.ends {cs : List Char} (h : Splits source cs rest) (hstrays : ¬Strays source) :
    ∃ stop : Stop ConversionResult, decoder.Ends stop rest ∧
      (stop.result .conversionOK .targetExhausted = .conversionOK ↔ rest = []) := by
  by_cases hne : rest = []
  · subst hne
    exact ⟨.done, .done, by simp [Stop.result]⟩
  cases hnext : decodeNext rest with
  | error result =>
    refine ⟨.failed result, .failed hne hnext, ?_⟩
    have hresult := (decodeNext_ne_targetExhausted rest).2
    rw [hnext] at hresult
    simpa [Stop.result, hne] using hresult
  | ok next =>
    obtain ⟨units, more⟩ := next
    obtain ⟨l, n, hrest, hl, -⟩ := decodeNext_eq_ok_iff.1 hnext
    rcases hl.cases with ⟨c, hc, -⟩ | hlax
    · exact absurd (wellFormed_iff.2 ⟨c, hc⟩) (h.stops l more hrest)
    · exact absurd ⟨cs, l, n, more, by rw [h.eq, hrest], hlax⟩ hstrays

/-- The decoding that the bytes have: the longest well-formed part is converted, the source is left
right behind it, and the result says whether that is everything. -/
def DecodesStrictly (source : List UInt8) : Prop :=
  ∃ cs rest, Splits source cs rest ∧
    ∀ targetEnd, (cs.flatMap utf16EncodeChar).length ≤ targetEnd →
      ∃ result, (result = .conversionOK ↔ rest = []) ∧
        convertUTF8ToUTF16 source targetEnd true =
          (result, rest, cs.flatMap utf16EncodeChar)

theorem decodesStrictly_iff (source : List UInt8) : DecodesStrictly source ↔ ¬Strays source := by
  constructor
  · rintro ⟨cs, rest, hsplits, hconvert⟩ ⟨cs', l, n, more, rfl, hlax⟩
    obtain rfl := hsplits.of_lax hlax
    -- With room for the stray sequence the source is left behind it.
    have hitems := (items_encode cs' (l ++ more)).trans
      (items_of_sequence (sequence_of_lax hlax) (.refl more))
    obtain ⟨result, -, hresult⟩ := hconvert _ (Nat.le_add_right _
      (cs'.flatMap utf16EncodeChar ++ (unitsOf n ++ [])).length)
    rw [convertUTF8ToUTF16_eq, hitems.convert_eq (Nat.le_add_left _ _)] at hresult
    have hleft := congrArg (fun r => r.2.1.length) hresult
    have hle := (Reader.convert_spec (R := decoder) ((cs.flatMap utf16EncodeChar).length +
      (cs'.flatMap utf16EncodeChar ++ (unitsOf n ++ [])).length -
      (cs'.flatMap utf16EncodeChar ++ (unitsOf n ++ [])).length) more).1.length_le
    have hpos := List.length_pos_iff.2 (sequence_of_lax hlax).ne_nil
    simp only [Reader.prepend, List.length_append] at hleft hle
    omega
  · intro hstrays
    obtain ⟨cs, rest, hsplits⟩ := exists_splits source
    obtain ⟨stop, hends, hresult⟩ := hsplits.ends hstrays
    refine ⟨cs, rest, hsplits, fun targetEnd hroom => ⟨_, hresult, ?_⟩⟩
    have hitems := items_encode cs rest
    rw [← hsplits.eq] at hitems
    rw [convertUTF8ToUTF16_eq, Reader.convert_eq_of_ends hitems hends hroom]

/-- A conversion that stopped for want of room, taken up with the rest of the source. -/
theorem convertUTF8ToUTF16_resume {rest' : List UInt8} {out out' : Text}
    {result : ConversionResult} {targetEnd targetEnd' large : Nat}
    (hfirst : convertUTF8ToUTF16 source targetEnd true = (.targetExhausted, rest, out))
    (hsecond : convertUTF8ToUTF16 rest targetEnd' true = (result, rest', out'))
    (hresult : result ≠ .targetExhausted)
    (hlarge : (convertUTF8ToUTF16 source large true).1 ≠ .targetExhausted) :
    convertUTF8ToUTF16 source large true = (result, rest', out ++ out') := by
  obtain ⟨stop, hconvert, -, -⟩ := decoder_of_convert hfirst
  obtain ⟨stop', hconvert', rfl, hfull⟩ := decoder_of_convert hsecond
  obtain ⟨stop₂, hconvert₂, hresult₂, hfull₂⟩ :=
    decoder_of_convert (show convertUTF8ToUTF16 source large true = (_, _, _) from rfl)
  have hwhole := Reader.convert_resume (Reader.items_of_convert hconvert).1 hconvert'
    (mt hfull.2 hresult) (by rw [hconvert₂]; exact mt hfull₂.2 hlarge)
  rw [convertUTF8ToUTF16_eq, hwhole]

/-- Strict decoding is exact unless a sequence with a second byte below `0x80` is reached; and
stopping for want of room loses nothing. -/
theorem convertUTF8ToUTF16_strict_iff (source : List UInt8) :
    (DecodesStrictly source ∧
      ∀ (targetEnd targetEnd' large : Nat) (rest rest' : List UInt8) (out out' : Text)
        (result : ConversionResult),
        convertUTF8ToUTF16 source targetEnd true = (.targetExhausted, rest, out) →
        convertUTF8ToUTF16 rest targetEnd' true = (result, rest', out') →
        result ≠ .targetExhausted →
        (convertUTF8ToUTF16 source large true).1 ≠ .targetExhausted →
        convertUTF8ToUTF16 source large true = (result, rest', out ++ out')) ↔
      ¬Strays source := by
  rw [decodesStrictly_iff, and_iff_left]
  intro targetEnd targetEnd' large rest rest' out out' result hfirst hsecond hresult hlarge
  exact convertUTF8ToUTF16_resume hfirst hsecond hresult hlarge

/-- The letter `A` after `0xED` is swallowed. -/
theorem convertUTF8ToUTF16_swallows :
    convertUTF8ToUTF16 [0xED, 0x41, 0x80] 3 true = (.conversionOK, [], [0xC040]) ∧
      ¬DecodesStrictly [0xED, 0x41, 0x80] := by
  refine ⟨by decide, fun h => (decodesStrictly_iff _).1 h ?_⟩
  exact ⟨[], [0xED, 0x41, 0x80], _, [], rfl, .three 0x41 0x80 (by decide) (by decide)⟩

end Odyssey.WTF.UTF8
