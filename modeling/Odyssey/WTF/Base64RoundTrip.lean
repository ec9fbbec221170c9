import Odyssey.WTF.Base64Encode

/-!
# The base64 decoder inverts the encoder

The decoder collects the values of the characters, which are the indices the encoder took them from.
It turns them into bytes in place: the bytes written so far never reach the values still to be read.
-/
namespace Odyssey.WTF.Base64

/-! ## Bits -/

/-- The low bits of `x` above the high bits of `y`. -/
theorem shift_or_shift (x y : Nat) {s t n k : Nat} (h : n ≤ s) :
    ((x <<< s) &&& (2 ^ (s + k) - 1)) ||| ((y >>> t) &&& (2 ^ n - 1)) =
      2 ^ s * (x % 2 ^ k) + y / 2 ^ t % 2 ^ n := by
  have hlow : y / 2 ^ t % 2 ^ n < 2 ^ s :=
    Nat.lt_of_lt_of_le (Nat.mod_lt _ (Nat.two_pow_pos n)) (Nat.pow_le_pow_right Nat.two_pos h)
  rw [Nat.and_two_pow_sub_one_eq_mod, Nat.and_two_pow_sub_one_eq_mod, Nat.shiftLeft_eq,
    Nat.shiftRight_eq_div_pow, Nat.pow_add, Nat.mul_comm x, Nat.mul_mod_mul_left,
    ← Nat.two_pow_add_eq_or_of_lt hlow]

/-- The six bits that two bytes share. -/
theorem sharedIndex_eq {b : Nat} (a : Nat) (hb : b < 256) :
    ((b >>> 4) &&& 0o17) ||| ((a <<< 4) &&& 0o77) = 16 * (a % 4) + b / 16 := by
  have h : ((a <<< 4) &&& 0o77) ||| ((b >>> 4) &&& 0o17) = 16 * (a % 4) + b / 16 % 16 :=
    shift_or_shift a b (s := 4) (t := 4) (n := 4) (k := 2) (by decide)
  rw [Nat.or_comm, h]
  omega

theorem sharedIndex_eq' {c : Nat} (b : Nat) (hc : c < 256) :
    ((c >>> 6) &&& 0o3) ||| ((b <<< 2) &&& 0o77) = 4 * (b % 16) + c / 64 := by
  have h : ((b <<< 2) &&& 0o77) ||| ((c >>> 6) &&& 0o3) = 4 * (b % 16) + c / 64 % 4 :=
    shift_or_shift b c (s := 2) (t := 6) (n := 2) (k := 4) (by decide)
  rw [Nat.or_comm, h]
  omega

theorem highIndex_eq {a : Nat} (ha : a < 256) : (a >>> 2) &&& 0o77 = a / 4 := by
  have h : (a >>> 2) &&& 0o77 = a >>> 2 % 64 := Nat.and_two_pow_sub_one_eq_mod (a >>> 2) 6
  rw [h, Nat.shiftRight_eq_div_pow]
  omega

theorem lowIndex_eq (c : Nat) : c &&& 0o77 = c % 64 := Nat.and_two_pow_sub_one_eq_mod c 6

theorem tripleIndices_eq (a b c : UInt8) :
    tripleIndices a.toNat b.toNat c.toNat = [a.toNat / 4, 16 * (a.toNat % 4) + b.toNat / 16,
      4 * (b.toNat % 16) + c.toNat / 64, c.toNat % 64] := by
  rw [tripleIndices, highIndex_eq a.toNat_lt, sharedIndex_eq _ b.toNat_lt,
    sharedIndex_eq' _ c.toNat_lt, lowIndex_eq]

theorem pairIndices_eq (a b : UInt8) :
    pairIndices a.toNat b.toNat = [a.toNat / 4, 16 * (a.toNat % 4) + b.toNat / 16,
      4 * (b.toNat % 16)] := by
  have hlast := sharedIndex_eq' b.toNat (c := 0) (by decide)
  rw [show (0 >>> 6) &&& 0o3 = 0 from rfl, Nat.zero_or, Nat.zero_div, Nat.add_zero] at hlast
  rw [pairIndices, highIndex_eq a.toNat_lt, sharedIndex_eq _ b.toNat_lt, hlast]

theorem singleIndices_eq (a : UInt8) :
    singleIndices a.toNat = [a.toNat / 4, 16 * (a.toNat % 4)] := by
  have hlast := sharedIndex_eq a.toNat (b := 0) (by decide)
  rw [show (0 >>> 4) &&& 0o17 = 0 from rfl, Nat.zero_or, Nat.zero_div, Nat.add_zero] at hlast
  rw [singleIndices, highIndex_eq a.toNat_lt, hlast]

theorem lt_of_mem_indexGroups {data : List UInt8} {index : Nat}
    (h : index ∈ (indexGroups data).flatten) : index < 64 := by
  fun_induction indexGroups data with
  | case1 a b c data ih =>
    rw [List.flatten_cons, List.mem_append, tripleIndices_eq] at h
    rcases h with h | h
    · have ha := a.toNat_lt
      have hb := b.toNat_lt
      have hc := c.toNat_lt
      simp only [List.mem_cons, List.not_mem_nil, or_false] at h
      omega
    · exact ih h
  | case2 a b =>
    have ha := a.toNat_lt
    have hb := b.toNat_lt
    simp only [pairIndices_eq, List.flatten_cons, List.flatten_nil, List.append_nil, List.mem_cons,
      List.not_mem_nil, or_false] at h
    omega
  | case3 a =>
    have ha := a.toNat_lt
    simp only [singleIndices_eq, List.flatten_cons, List.flatten_nil, List.append_nil,
      List.mem_cons, List.not_mem_nil, or_false] at h
    omega
  | case4 => simp at h

theorem toNat_ofNat_index {m : Nat} (hm : m < 64) : (UInt8.ofNat m).toNat = m :=
  UInt8.toNat_ofNat_of_lt' (Nat.lt_trans hm (by decide))

theorem firstByte_eq {m n : Nat} (hm : m < 64) (hn : n < 64) :
    firstByte (UInt8.ofNat m) (UInt8.ofNat n) = UInt8.ofNat (4 * m + n / 16) := by
  have h : ((m <<< 2) &&& 255) ||| ((n >>> 4) &&& 0o3) = 4 * (m % 64) + n / 16 % 4 :=
    shift_or_shift m n (s := 2) (t := 4) (n := 2) (k := 6) (by decide)
  rw [firstByte, toNat_ofNat_index hm, toNat_ofNat_index hn, h,
    Nat.mod_eq_of_lt hm, Nat.mod_eq_of_lt (by omega)]

theorem secondByte_eq {m n : Nat} (hm : m < 64) (hn : n < 64) :
    secondByte (UInt8.ofNat m) (UInt8.ofNat n) = UInt8.ofNat (16 * (m % 16) + n / 4) := by
  have h : ((m <<< 4) &&& 255) ||| ((n >>> 2) &&& 0o17) = 16 * (m % 16) + n / 4 % 16 :=
    shift_or_shift m n (s := 4) (t := 2) (n := 4) (k := 4) (by decide)
  rw [secondByte, toNat_ofNat_index hm, toNat_ofNat_index hn, h,
    Nat.mod_eq_of_lt (show n / 4 < 16 by omega)]

theorem thirdByte_eq {m n : Nat} (hm : m < 64) (hn : n < 64) :
    thirdByte (UInt8.ofNat m) (UInt8.ofNat n) = UInt8.ofNat (64 * (m % 4) + n) := by
  have h : ((m <<< 6) &&& 255) ||| (n &&& 0o77) = 64 * (m % 4) + n / 1 % 64 :=
    shift_or_shift m n (s := 6) (t := 0) (n := 6) (k := 2) (by decide)
  rw [thirdByte, toNat_ofNat_index hm, toNat_ofNat_index hn, h,
    Nat.div_one, Nat.mod_eq_of_lt hn]

/-! ## Bytes from values -/

/-- The bytes of the values, group by group. -/
def bytesOf : List UInt8 → List UInt8
  | v₀ :: v₁ :: v₂ :: v₃ :: values =>
    firstByte v₀ v₁ :: secondByte v₁ v₂ :: thirdByte v₂ v₃ :: bytesOf values
  | [v₀, v₁, v₂] => [firstByte v₀ v₁, secondByte v₁ v₂]
  | [v₀, v₁] => [firstByte v₀ v₁]
  | _ => []

/-- The values the encoder looks up. -/
def valuesOf (data : List UInt8) : List UInt8 := (indexGroups data).flatten.map UInt8.ofNat

theorem bytesOf_valuesOf (data : List UInt8) : bytesOf (valuesOf data) = data := by
  unfold valuesOf
  fun_induction indexGroups data with
  | case1 a b c data ih =>
    have ha := a.toNat_lt
    have hb := b.toNat_lt
    have hc := c.toNat_lt
    rw [tripleIndices_eq]
    simp only [List.flatten_cons, List.cons_append, List.nil_append, List.map_cons, bytesOf, ih]
    rw [firstByte_eq (by omega) (by omega), secondByte_eq (by omega) (by omega),
      thirdByte_eq (by omega) (by omega)]
    congr
    · rw [show 4 * (a.toNat / 4) + (16 * (a.toNat % 4) + b.toNat / 16) / 16 = a.toNat by omega,
        UInt8.ofNat_toNat]
    · rw [show 16 * ((16 * (a.toNat % 4) + b.toNat / 16) % 16) +
        (4 * (b.toNat % 16) + c.toNat / 64) / 4 = b.toNat by omega, UInt8.ofNat_toNat]
    · rw [show 64 * ((4 * (b.toNat % 16) + c.toNat / 64) % 4) + c.toNat % 64 = c.toNat by omega,
        UInt8.ofNat_toNat]
  | case2 a b =>
    have ha := a.toNat_lt
    have hb := b.toNat_lt
    simp only [pairIndices_eq, List.flatten_cons, List.flatten_nil, List.append_nil, List.map_cons,
      List.map_nil, bytesOf]
    rw [firstByte_eq (by omega) (by omega), secondByte_eq (by omega) (by omega)]
    congr
    · rw [show 4 * (a.toNat / 4) + (16 * (a.toNat % 4) + b.toNat / 16) / 16 = a.toNat by omega,
        UInt8.ofNat_toNat]
    · rw [show 16 * ((16 * (a.toNat % 4) + b.toNat / 16) % 16) + 4 * (b.toNat % 16) / 4 =
        b.toNat by omega, UInt8.ofNat_toNat]
  | case3 a =>
    have ha := a.toNat_lt
    simp only [singleIndices_eq, List.flatten_cons, List.flatten_nil, List.append_nil,
      List.map_cons, List.map_nil, bytesOf]
    rw [firstByte_eq (by omega) (by omega),
      show 4 * (a.toNat / 4) + 16 * (a.toNat % 4) / 16 = a.toNat by omega, UInt8.ofNat_toNat]
  | case4 => rfl

/-! ## The conversion in place -/

/-- The vector begins with the bytes that are done, and from `sidx` on it holds the values that are
left. -/
structure Converting (out done : List UInt8) (sidx : Nat) (values : List UInt8) : Prop where
  done_eq : out.take done.length = done
  values_eq : out.drop sidx = values
  le : done.length ≤ sidx

namespace Converting

variable {out done values : List UInt8} {sidx : Nat} {v : UInt8}

theorem getD (h : Converting out done sidx values) (k : Nat) :
    out.getD (sidx + k) 0 = values.getD k 0 := by
  rw [← h.values_eq, List.getD_eq_getElem?_getD, List.getD_eq_getElem?_getD, List.getElem?_drop]

theorem getD_zero (h : Converting out done sidx (v :: values)) : out.getD sidx 0 = v :=
  h.getD 0

theorem skip (h : Converting out done sidx (v :: values)) :
    Converting out done (sidx + 1) values where
  done_eq := h.done_eq
  values_eq := by rw [← List.drop_drop, h.values_eq, List.drop_one, List.tail_cons]
  le := Nat.le_succ_of_le h.le

/-- A byte goes to the end of the bytes that are done, at the expense of one value at most. -/
theorem write (h : Converting out done sidx (v :: values)) (b : UInt8) :
    Converting (out.set done.length b) (done ++ [b]) (sidx + 1) values where
  done_eq := by
    have hlt : sidx < out.length := by
      rw [← Nat.not_le, ← List.drop_eq_nil_iff, h.values_eq]
      exact List.cons_ne_nil _ _
    have hdone := h.le
    rw [List.length_append, List.length_singleton, List.take_add_one, List.take_set_of_le,
      h.done_eq, List.getElem?_set_self (by omega)]
    · rfl
    · exact Nat.le_refl _
  values_eq := by
    rw [List.drop_set_of_lt (Nat.lt_succ_of_le h.le)]
    exact h.skip.values_eq
  le := by
    rw [List.length_append, List.length_singleton]
    exact Nat.succ_le_succ h.le

end Converting

/-- The number of bytes of so many values. -/
def byteCount (values : Nat) : Nat := values - (values + 3) / 4

/-- One turn of the loop converts one group. -/
theorem decodeLoop_step {outLength turns sidx : Nat} {out done values : List UInt8}
    {v₀ v₁ v₂ v₃ : UInt8}
    (h : Converting out done sidx (v₀ :: v₁ :: v₂ :: v₃ :: values))
    (hlt : done.length + 2 < outLength) :
    ∃ out', decodeLoop outLength (turns + 1) sidx done.length out =
        decodeLoop outLength turns (sidx + 4) (done.length + 3) out' ∧
      Converting out' (done ++ [firstByte v₀ v₁, secondByte v₁ v₂, thirdByte v₂ v₃]) (sidx + 4)
        values := by
  have h₁ := h.write (firstByte v₀ v₁)
  have h₂ := h₁.write (secondByte v₁ v₂)
  have h₃ := (h₂.write (thirdByte v₂ v₃)).skip
  simp only [List.append_assoc, List.cons_append, List.nil_append, List.length_append,
    List.length_cons, List.length_nil] at h₂ h₃
  refine ⟨_, ?_, h₃⟩
  have hfirst : out.getD (sidx + 1) 0 = v₁ := h.getD 1
  have hsecond : (out.set done.length (firstByte v₀ v₁)).getD (sidx + 2) 0 = v₂ := h₁.getD 1
  rw [decodeLoop, if_pos hlt, h.getD_zero, hfirst]
  dsimp only
  rw [h₁.getD_zero, hsecond, h₂.getD_zero, h₂.getD 1]
  rfl

/-- The loop converts all complete groups. -/
theorem decodeLoop_spec {outLength turns sidx : Nat} {out done values : List UInt8}
    (h : Converting out done sidx values)
    (hlength : outLength = done.length + byteCount values.length)
    (hturns : values.length / 4 ≤ turns) :
    ∃ sidx' out' done' values',
      decodeLoop outLength turns sidx done.length out = (sidx', done'.length, out') ∧
      Converting out' done' sidx' values' ∧ values'.length < 4 ∧
      outLength = done'.length + byteCount values'.length ∧
      done ++ bytesOf values = done' ++ bytesOf values' := by
  unfold byteCount at hlength ⊢
  induction turns generalizing sidx out done values with
  | zero => exact ⟨_, _, _, _, rfl, h, by omega, hlength, rfl⟩
  | succ turns ih =>
    rcases values with _ | ⟨v₀, _ | ⟨v₁, _ | ⟨v₂, _ | ⟨v₃, values⟩⟩⟩⟩
    case cons.cons.cons.cons =>
      simp only [List.length_cons] at hlength hturns
      obtain ⟨out', hloop, hconverting⟩ :=
        @decodeLoop_step outLength turns _ _ _ _ _ _ _ _ h (by omega)
      have hdone : outLength =
          (done ++ [firstByte v₀ v₁, secondByte v₁ v₂, thirdByte v₂ v₃]).length +
            (values.length - (values.length + 3) / 4) := by
        simp only [List.length_append, List.length_cons, List.length_nil]
        omega
      rw [hloop]
      simpa [bytesOf] using ih hconverting hdone (by omega)
    all_goals
      refine ⟨_, _, _, _, ?_, h, by simp, hlength, rfl⟩
      simp only [List.length_cons, List.length_nil] at hlength
      rw [decodeLoop, if_neg (by omega)]

theorem decodeValues_eq (values : List UInt8) :
    decodeValues (byteCount values.length) values = bytesOf values := by
  have hstart : Converting values [] 0 values := ⟨rfl, rfl, Nat.le_refl 0⟩
  obtain ⟨sidx, out, done, rest, hloop, h, hrest, hlength, hbytes⟩ :=
    decodeLoop_spec hstart (Nat.zero_add _).symm
      (show values.length / 4 ≤ byteCount values.length by unfold byteCount; omega)
  rw [List.nil_append] at hbytes
  rw [List.length_nil] at hloop
  simp only [decodeValues, hloop, hbytes]
  rw [hlength]
  rcases rest with _ | ⟨v₀, _ | ⟨v₁, _ | ⟨v₂, _ | ⟨v₃, rest⟩⟩⟩⟩
  · simpa [byteCount, bytesOf] using h.done_eq
  · simpa [byteCount, bytesOf] using h.done_eq
  · have hwrite := h.write (firstByte v₀ v₁)
    have hfirst : out.getD (sidx + 1) 0 = v₁ := h.getD 1
    simpa [byteCount, bytesOf, -List.getD_eq_getElem?_getD, h.getD_zero, hfirst]
      using hwrite.done_eq
  · have hfirst : out.getD (sidx + 1) 0 = v₁ := h.getD 1
    have hwrite := h.write (firstByte v₀ v₁)
    have hsecond : (out.set done.length (firstByte v₀ v₁)).getD (sidx + 2) 0 = v₂ := hwrite.getD 1
    have hwrite' := hwrite.write (secondByte v₁ v₂)
    simpa [byteCount, bytesOf, -List.getD_eq_getElem?_getD, h.getD_zero, hfirst, hwrite.getD_zero,
      hsecond] using hwrite'.done_eq
  · simp only [List.length_cons] at hrest
    omega

/-! ## The values of the characters -/

/-- The characters of the encoder as the decoder reads them. -/
def widen (text : List UInt8) : Text := text.map (·.toUInt16)

/-- The decoder's map inverts the encoder's. -/
structure Inverse (encodeMap : List UInt8) (decodeMap : List Int) : Prop where
  ne_equalsSign : ∀ index < 64, (encodeMap.getD index 0).toUInt16 ≠ 0x3D
  lt : ∀ index < 64, (encodeMap.getD index 0).toUInt16 < 128
  decode : ∀ index < 64,
    decodeMap.getD (encodeMap.getD index 0).toUInt16.toNat 0 = (index : Int)
  lineFeed : decodeMap.getD 0x0A 0 = nonAlphabet

theorem inverse_base64 : Inverse base64EncMap base64DecMap where
  ne_equalsSign := by decide +kernel
  lt := by decide +kernel
  decode := by decide +kernel
  lineFeed := rfl

theorem inverse_base64URL : Inverse base64URLEncMap base64URLDecMap where
  ne_equalsSign := by decide +kernel
  lt := by decide +kernel
  decode := by decide +kernel
  lineFeed := rfl

section
variable {isWhiteSpaceNeutral : UInt16 → Bool} {fresh : Nat → UInt8} {length : Nat}
variable {policy : Base64DecodePolicy} {encodeMap : List UInt8} {decodeMap : List Int}

theorem decodeScan_chars (hmap : Inverse encodeMap decodeMap) {indices : List Nat}
    (hindices : ∀ index ∈ indices, index < 64) (rest : Text) (out : List UInt8) :
    decodeScan isWhiteSpaceNeutral length policy decodeMap
        (widen (charsOf encodeMap indices) ++ rest) 0 out =
      decodeScan isWhiteSpaceNeutral length policy decodeMap rest 0
        (out ++ indices.map UInt8.ofNat) := by
  induction indices generalizing out with
  | nil => simp [widen, charsOf]
  | cons index indices ih =>
    have hindex := hindices index List.mem_cons_self
    have hvalue : (index : Int) ≠ nonAlphabet := by
      unfold nonAlphabet
      omega
    simp only [widen, charsOf, List.map_cons, List.cons_append] at ih ⊢
    rw [decodeScan, if_neg (hmap.ne_equalsSign index hindex)]
    simp only [if_pos (hmap.lt index hindex), hmap.decode index hindex, if_pos hvalue,
      Int.toNat_natCast]
    rw [if_neg (not_not.2 rfl), ih (fun index h => hindices index (List.mem_cons_of_mem _ h)),
      List.append_assoc, List.singleton_append]

theorem decodeScan_lineBreak (hmap : Inverse encodeMap decodeMap) {insertLFs : Bool}
    (hpolicy : insertLFs = true → policy = .ignoreWhitespace) (index : Nat) (rest : Text)
    (out : List UInt8) :
    decodeScan isWhiteSpaceNeutral length policy decodeMap
        (widen (lineBreak insertLFs index) ++ rest) 0 out =
      decodeScan isWhiteSpaceNeutral length policy decodeMap rest 0 out := by
  unfold lineBreak
  split_ifs with h
  · rw [hpolicy h.1]
    have hlow : ((lineFeed.toUInt16 < 128) : Prop) := by decide
    have hvalue : decodeMap.getD lineFeed.toUInt16.toNat 0 = nonAlphabet := hmap.lineFeed
    have hspace : isSpaceOrNewline isWhiteSpaceNeutral lineFeed.toUInt16 = true := rfl
    simp only [widen, List.map_cons, List.map_nil, List.cons_append, List.nil_append]
    rw [decodeScan, if_neg (by decide)]
    simp only [if_pos hlow, hvalue, hspace]
    simp
  · rfl

theorem decodeScan_layout (hmap : Inverse encodeMap decodeMap) {insertLFs : Bool}
    (hpolicy : insertLFs = true → policy = .ignoreWhitespace) {groups : List (List Nat)}
    (hgroups : ∀ index ∈ groups.flatten, index < 64) (index : Nat) (rest : Text)
    (out : List UInt8) :
    decodeScan isWhiteSpaceNeutral length policy decodeMap
        (widen (layout insertLFs index (charGroups encodeMap groups)) ++ rest) 0 out =
      decodeScan isWhiteSpaceNeutral length policy decodeMap rest 0
        (out ++ groups.flatten.map UInt8.ofNat) := by
  induction groups generalizing index out with
  | nil => simp [widen, charGroups, layout]
  | cons group groups ih =>
    rw [List.flatten_cons, List.forall_mem_append] at hgroups
    have hsplit : widen (layout insertLFs index (charGroups encodeMap (group :: groups))) ++ rest =
        widen (lineBreak insertLFs index) ++ (widen (charsOf encodeMap group) ++
          (widen (layout insertLFs (index + 1) (charGroups encodeMap groups)) ++ rest)) := by
      simp [widen, charGroups, layout]
    rw [hsplit, decodeScan_lineBreak hmap hpolicy, decodeScan_chars hmap hgroups.1,
      ih hgroups.2, List.flatten_cons, List.map_append, List.append_assoc]

theorem decodeScan_padding {count equalsSignCount : Nat}
    (hpolicy : policy = .failOnInvalidCharacterOrExcessPadding →
      length % 4 = 0 ∧ equalsSignCount + count ≤ 2) (out : List UInt8) :
    decodeScan isWhiteSpaceNeutral length policy decodeMap
        (widen (List.replicate count equalsSign)) equalsSignCount out =
      some (equalsSignCount + count, out) := by
  induction count generalizing equalsSignCount with
  | zero => rfl
  | succ count ih =>
    have hequals : equalsSign.toUInt16 = 0x3D := rfl
    have hcheck : ¬(policy = .failOnInvalidCharacterOrExcessPadding ∧
        (length % 4 ≠ 0 ∨ equalsSignCount + 1 > 2)) := by
      rintro ⟨h, hexcess⟩
      have hfit := hpolicy h
      omega
    rw [List.replicate_succ, widen, List.map_cons, decodeScan, if_pos hequals]
    simp only [if_neg hcheck]
    have hrest := @ih (equalsSignCount + 1) fun h => by
      have hfit := hpolicy h
      omega
    rw [widen] at hrest
    rw [hrest, Nat.add_assoc, Nat.add_comm 1]

theorem byteCount_valuesOf (data : List UInt8) :
    byteCount (valuesOf data).length = data.length := by
  have hlength := length_flatten_indexGroups data
  unfold padding at hlength
  rw [valuesOf, List.length_map, byteCount]
  omega

/-- The decoder finds the data in the encoder's characters and any padding the policy takes. -/
theorem base64DecodeInternal_encodedText (hmap : Inverse encodeMap decodeMap) {insertLFs : Bool}
    (hinsert : insertLFs = true → policy = .ignoreWhitespace) {data : List UInt8} {count : Nat}
    (hcount : count ≤ padding data.length)
    (hpolicy : policy = .failOnInvalidCharacterOrExcessPadding →
      ((encodedText encodeMap insertLFs data).length + count) % 4 = 0) :
    base64DecodeInternal isWhiteSpaceNeutral fresh
        (widen (encodedText encodeMap insertLFs data ++ List.replicate count equalsSign)) policy
        decodeMap = some data := by
  have hvalues := length_flatten_indexGroups data
  unfold padding at hcount hvalues
  rcases Nat.eq_zero_or_pos data.length with hempty | hpos
  · obtain rfl := List.eq_nil_of_length_eq_zero hempty
    obtain rfl : count = 0 := by simpa using hcount
    rfl
  have hscan (length : Nat) (hlength : policy = .failOnInvalidCharacterOrExcessPadding →
      length % 4 = 0) :
      decodeScan isWhiteSpaceNeutral length policy decodeMap
          (widen (encodedText encodeMap insertLFs data ++ List.replicate count equalsSign)) 0 [] =
        some (count, valuesOf data) := by
    rw [show widen (encodedText encodeMap insertLFs data ++ List.replicate count equalsSign) =
        widen (encodedText encodeMap insertLFs data) ++ widen (List.replicate count equalsSign) from
      List.map_append, encodedText,
      decodeScan_layout hmap hinsert (fun index => lt_of_mem_indexGroups),
      decodeScan_padding fun h => ⟨hlength h, by omega⟩, Nat.zero_add]
    rfl
  have hbytes := byteCount_valuesOf data
  have hvalues' : (valuesOf data).length = (indexGroups data).flatten.length := List.length_map _
  have hne : (widen (encodedText encodeMap insertLFs data ++
      List.replicate count equalsSign)).length ≠ 0 := by
    intro hzero
    have hnil := List.eq_nil_of_length_eq_zero hzero
    have hnone := hscan 0 fun _ => rfl
    rw [hnil, decodeScan, Option.some.injEq, Prod.mk.injEq] at hnone
    rw [← hnone.2] at hvalues'
    rw [List.length_nil] at hvalues'
    omega
  rw [base64DecodeInternal, if_neg hne, hscan]
  · simp only [Option.bind_eq_bind, Option.bind_some]
    rw [byteCount] at hbytes
    rw [if_neg (by omega), if_neg (by omega), hbytes, if_neg (by omega), ← byteCount_valuesOf,
      decodeValues_eq, bytesOf_valuesOf]
  · intro h
    simpa [widen] using hpolicy h

end

/-! ## The round trip -/

/-- The encoding function of a policy. -/
def encode (policy : Base64EncodePolicy) (data : List UInt8) : Option (List UInt8) :=
  if policy = .urlPolicy then base64URLEncode data else base64Encode data policy

/-- The decoding function for the output of a policy. -/
def decode (isWhiteSpaceNeutral : UInt16 → Bool) (fresh : Nat → UInt8) :
    Base64EncodePolicy → Text → Option (List UInt8)
  | .doNotInsertLFs, text =>
    base64Decode isWhiteSpaceNeutral fresh text .failOnInvalidCharacterOrExcessPadding
  | .insertLFs, text => base64Decode isWhiteSpaceNeutral fresh text .ignoreWhitespace
  | .urlPolicy, text => base64URLDecode isWhiteSpaceNeutral fresh text

/-- What is expected of an output. The URL policy cuts the vector to what has been written. -/
structure RoundTrip (isWhiteSpaceNeutral : UInt16 → Bool) (fresh : Nat → UInt8)
    (policy : Base64EncodePolicy) (data out : List UInt8) : Prop where
  decoded : decode isWhiteSpaceNeutral fresh policy (widen out) = some data
  size : policy ≠ .urlPolicy → out.length = (outSize data.length policy).1
  lines : policy = .insertLFs → Lines out

theorem length_output {data : List UInt8} {policy : Base64EncodePolicy} (encodeMap : List UInt8)
    (hmax : data.length ≤ maxInputBufferSize) :
    (encodedText encodeMap (outSize data.length policy).2 data ++
      List.replicate (padding data.length) equalsSign).length = (outSize data.length policy).1 := by
  rw [List.length_append, List.length_replicate, length_encodedText encodeMap policy hmax]

section
variable (isWhiteSpaceNeutral : UInt16 → Bool) (fresh : Nat → UInt8)

theorem roundTrip_doNotInsertLFs {data : List UInt8} (hmax : data.length ≤ maxInputBufferSize) :
    ∃ out, encode .doNotInsertLFs data = some out ∧
      RoundTrip isWhiteSpaceNeutral fresh .doNotInsertLFs data out := by
  have hlength := length_encodedText base64EncMap .doNotInsertLFs hmax
  have hflag : (outSize data.length .doNotInsertLFs).2 = false := rfl
  have hsize : (outSize data.length .doNotInsertLFs).1 % 4 = 0 := by
    simp only [outSize, reduceCtorEq, false_and, if_false]
    omega
  refine ⟨_, base64EncodeInternal_eq base64EncMap hmax (by simp), ?_, ?_, by simp⟩
  · exact base64DecodeInternal_encodedText inverse_base64 (by simp [hflag]) (Nat.le_refl _)
      (fun _ => by rw [hlength, hsize])
  · exact fun _ => length_output base64EncMap hmax

theorem roundTrip_insertLFs {data : List UInt8} (hmax : data.length ≤ maxInputBufferSize)
    (hcount : data.length / 3 < 2 ^ 29) :
    ∃ out, encode .insertLFs data = some out ∧
      RoundTrip isWhiteSpaceNeutral fresh .insertLFs data out := by
  refine ⟨_, base64EncodeInternal_eq base64EncMap hmax fun _ => hcount, ?_, ?_, ?_⟩
  · exact base64DecodeInternal_encodedText inverse_base64 (fun _ => rfl) (Nat.le_refl _) (by simp)
  · exact fun _ => length_output base64EncMap hmax
  · exact fun _ => lines_encodedText (by decide +kernel) _ data

theorem roundTrip_urlPolicy {data : List UInt8} (hmax : data.length ≤ maxInputBufferSize) :
    ∃ out, encode .urlPolicy data = some out ∧
      RoundTrip isWhiteSpaceNeutral fresh .urlPolicy data out := by
  have hflag : (outSize data.length .urlPolicy).2 = false := rfl
  refine ⟨_, base64EncodeInternal_eq base64URLEncMap hmax (by simp), ?_, by simp, by simp⟩
  exact base64DecodeInternal_encodedText inverse_base64URL (by simp [hflag]) (Nat.zero_le _)
    (by simp)

/-- The round trip works for every input up to the limit, as long as the encoder's `count` does not
overflow: it counts the characters of the complete triples when line feeds are asked for. -/
theorem encode_roundTrip_iff (policy : Base64EncodePolicy) (data : List UInt8)
    (hmax : data.length ≤ maxInputBufferSize) :
    (∃ out, encode policy data = some out ∧ RoundTrip isWhiteSpaceNeutral fresh policy data out) ↔
      ¬(policy = .insertLFs ∧ 2 ^ 29 ≤ data.length / 3) := by
  constructor
  · rintro ⟨out, hencode, -⟩ ⟨rfl, hcount⟩
    have hnone : encode .insertLFs data = none :=
      base64EncodeInternal_overflow base64EncMap hmax hcount
    rw [hnone] at hencode
    cases hencode
  · intro h
    cases policy with
    | doNotInsertLFs => exact roundTrip_doNotInsertLFs isWhiteSpaceNeutral fresh hmax
    | insertLFs =>
      refine roundTrip_insertLFs isWhiteSpaceNeutral fresh hmax ?_
      rw [← Nat.not_le]
      exact fun hcount => h ⟨rfl, hcount⟩
    | urlPolicy => exact roundTrip_urlPolicy isWhiteSpaceNeutral fresh hmax

end

/-- Two lines: the encoder puts a line feed after nineteen groups. -/
theorem encode_roundTrip_twoLines :
    ∃ out, encode .insertLFs (List.replicate 58 0xFF) = some out ∧
      RoundTrip (fun _ => false) (fun _ => 0) .insertLFs (List.replicate 58 0xFF) out :=
  (encode_roundTrip_iff _ _ .insertLFs (List.replicate 58 0xFF) (by decide +kernel)).2
    (by decide +kernel)

theorem encode_replicate_overflow {n : Nat} (hmax : n ≤ maxInputBufferSize)
    (hcount : 2 ^ 29 ≤ n / 3) : encode .insertLFs (List.replicate n 0) = none := by
  refine base64EncodeInternal_overflow base64EncMap ?_ ?_
  · rwa [List.length_replicate]
  · rwa [List.length_replicate]

/-- Data of half the limit that is not encoded. -/
theorem encode_insertLFs_overflow :
    (List.replicate 1610612736 (0 : UInt8)).length ≤ maxInputBufferSize ∧
      encode .insertLFs (List.replicate 1610612736 0) = none := by
  have hmax : 1610612736 ≤ maxInputBufferSize := by decide +kernel
  refine ⟨?_, encode_replicate_overflow hmax (by decide +kernel)⟩
  rwa [List.length_replicate]

/-! ## White space -/

theorem nonAlphabet_of_isSpaceOrNewline {isWhiteSpaceNeutral : UInt16 → Bool} {ch : UInt16}
    (h : isSpaceOrNewline isWhiteSpaceNeutral ch = true) : ch ≠ 0x3D ∧
      (if ch < 128 then base64DecMap.getD ch.toNat 0 else nonAlphabet) = nonAlphabet := by
  have every : ∀ n < 128, ASCII.isASCIISpace (UInt16.ofNat n) = true →
      n ≠ 0x3D ∧ base64DecMap.getD n 0 = nonAlphabet := by
    decide +kernel
  by_cases hlt : ch < 128
  · have hlt' : ch.toNat < 128 := UInt16.lt_iff_toNat_lt.mp hlt
    have hle : ch ≤ 0x7F := UInt16.le_iff_toNat_le.mpr (Nat.le_of_lt_succ hlt')
    rw [isSpaceOrNewline, if_pos hle] at h
    obtain ⟨hne, hmap⟩ := every ch.toNat hlt' (by rwa [UInt16.ofNat_toNat])
    exact ⟨fun heq => hne (heq ▸ rfl), by rw [if_pos hlt, hmap]⟩
  · refine ⟨fun heq => hlt (heq ▸ by decide), if_neg hlt⟩

theorem decodeScan_ignoreWhitespace (isWhiteSpaceNeutral : UInt16 → Bool) (data : Text)
    (length length' count : Nat) (out : List UInt8) :
    decodeScan isWhiteSpaceNeutral length .ignoreWhitespace base64DecMap data count out =
      decodeScan isWhiteSpaceNeutral length' .failOnInvalidCharacter base64DecMap
        (data.filter fun ch => !isSpaceOrNewline isWhiteSpaceNeutral ch) count out := by
  induction data generalizing count out with
  | nil => rfl
  | cons ch data ih =>
    cases hspace : isSpaceOrNewline isWhiteSpaceNeutral ch with
    | true =>
      obtain ⟨hne, hmap⟩ := nonAlphabet_of_isSpaceOrNewline hspace
      rw [List.filter_cons_of_neg (by simp [hspace]), decodeScan, if_neg hne]
      simp only [hmap]
      simp [hspace, ih]
    | false =>
      rw [List.filter_cons_of_pos (by simp [hspace]), decodeScan, decodeScan]
      simp [hspace, ih]

/-- A scan that fails on every other character counts all characters of the text. -/
theorem length_of_decodeScan {isWhiteSpaceNeutral : UInt16 → Bool} {length count count' : Nat}
    {decodeMap : List Int} {data : Text} {out out' : List UInt8}
    (h : decodeScan isWhiteSpaceNeutral length .failOnInvalidCharacter decodeMap data count out =
      some (count', out')) : count' + out'.length = count + out.length + data.length := by
  induction data generalizing count out with
  | nil =>
    cases h
    rfl
  | cons ch data ih =>
    rw [decodeScan] at h
    simp only [reduceCtorEq, false_and, if_false, true_or, or_true, if_true] at h
    generalize (if ch < 128 then decodeMap.getD ch.toNat 0 else nonAlphabet) = decodedCharacter at h
    rw [List.length_cons]
    split_ifs at h
    · have := ih h
      omega
    · have := ih h
      rw [List.length_append, List.length_singleton] at this
      omega

/-- White space that is ignored might as well not be there: the lenient decoder is the strict one on
the other characters, wherever the white space stands, between and after the padding too. Where
there is nothing but white space, it accepts the text and returns as many bytes as there are
characters, none of which it has written. -/
theorem base64Decode_ignoreWhitespace (isWhiteSpaceNeutral : UInt16 → Bool)
    (fresh fresh' : Nat → UInt8) (data : Text) :
    base64Decode isWhiteSpaceNeutral fresh data .ignoreWhitespace =
      if data.all (isSpaceOrNewline isWhiteSpaceNeutral) then
        some ((List.range data.length).map fresh)
      else
        base64Decode isWhiteSpaceNeutral fresh'
          (data.filter fun ch => !isSpaceOrNewline isWhiteSpaceNeutral ch)
          .failOnInvalidCharacter := by
  generalize hfiltered : (data.filter fun ch => !isSpaceOrNewline isWhiteSpaceNeutral ch) = rest
  have hall : data.all (isSpaceOrNewline isWhiteSpaceNeutral) = true ↔ rest = [] := by
    rw [← hfiltered]
    simp
  have scan := decodeScan_ignoreWhitespace isWhiteSpaceNeutral data data.length rest.length 0 []
  rw [hfiltered] at scan
  rcases data with _ | ⟨ch, data⟩
  · rfl
  rw [base64Decode, base64DecodeInternal, if_neg (by simp), scan]
  rcases rest with _ | ⟨first, rest⟩
  · rw [if_pos (hall.2 rfl)]
    rfl
  rw [if_neg fun h => List.cons_ne_nil _ _ (hall.1 h), base64Decode, base64DecodeInternal,
    if_neg (by simp)]
  cases hscan : decodeScan isWhiteSpaceNeutral (first :: rest).length .failOnInvalidCharacter
      base64DecMap (first :: rest) 0 [] with
  | none => rfl
  | some result =>
    -- every character is padding or has a value, so that the vector is not returned as it was grown
    have hlength := length_of_decodeScan hscan
    rw [List.length_cons, List.length_nil] at hlength
    simp only [Option.bind_eq_bind, Option.bind_some]
    split_ifs <;> first | rfl | omega

end Odyssey.WTF.Base64
