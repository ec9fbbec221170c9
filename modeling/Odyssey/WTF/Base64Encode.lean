import Odyssey.WTF.Base64
import Mathlib.Algebra.Order.Ring.Int

/-!
# What the base64 encoder writes

The encoder writes groups of characters, with a line feed before every nineteenth group but the
first. It stays inside its output as long as `count` does not overflow.
-/
namespace Odyssey.WTF.Base64

/-! ## Groups -/

/-- The indices of the characters, group by group. -/
def indexGroups : List UInt8 → List (List Nat)
  | a :: b :: c :: data => tripleIndices a.toNat b.toNat c.toNat :: indexGroups data
  | [a, b] => [pairIndices a.toNat b.toNat]
  | [a] => [singleIndices a.toNat]
  | [] => []

/-- The groups of the complete triples. -/
def tripleGroups : List UInt8 → List (List Nat)
  | a :: b :: c :: data => tripleIndices a.toNat b.toNat c.toNat :: tripleGroups data
  | _ => []

/-- The bytes after the complete triples. -/
def lastBytes : List UInt8 → List UInt8
  | _ :: _ :: _ :: data => lastBytes data
  | data => data

def lastGroups : List UInt8 → List (List Nat)
  | [a, b] => [pairIndices a.toNat b.toNat]
  | [a] => [singleIndices a.toNat]
  | _ => []

theorem indexGroups_eq (data : List UInt8) :
    indexGroups data = tripleGroups data ++ lastGroups (lastBytes data) := by
  fun_induction indexGroups data with
  | case1 a b c data ih => simp [tripleGroups, lastBytes, ih]
  | case2 a b => rfl
  | case3 a => rfl
  | case4 => rfl

theorem length_lt_of_no_triple {data : List UInt8}
    (h : ∀ a b c rest, data = a :: b :: c :: rest → False) : data.length < 3 := by
  rcases data with _ | ⟨a, _ | ⟨b, _ | ⟨c, data⟩⟩⟩
  · simp
  · simp
  · simp
  · exact absurd rfl (h a b c data)

theorem length_tripleGroups (data : List UInt8) : (tripleGroups data).length = data.length / 3 := by
  fun_induction tripleGroups data with
  | case1 a b c data ih =>
    simp only [List.length_cons, ih]
    omega
  | case2 data hdata =>
    have hshort := length_lt_of_no_triple hdata
    rw [List.length_nil]
    omega

theorem length_lastBytes (data : List UInt8) : (lastBytes data).length = data.length % 3 := by
  fun_induction lastBytes data with
  | case1 a b c data ih =>
    simp only [List.length_cons, ih]
    omega
  | case2 data hdata =>
    have hshort := length_lt_of_no_triple hdata
    omega

theorem length_indexGroups (data : List UInt8) :
    (indexGroups data).length = (data.length + 2) / 3 := by
  fun_induction indexGroups data with
  | case1 a b c data ih =>
    simp only [List.length_cons, ih]
    omega
  | case2 a b => simp
  | case3 a => simp
  | case4 => simp

/-! ## Layout -/

/-- The line feed before the group with this number. -/
def lineBreak (insertLFs : Bool) (index : Nat) : List UInt8 :=
  if insertLFs ∧ index ≠ 0 ∧ index % 19 = 0 then [lineFeed] else []

/-- Groups of characters from the group with this number on. -/
def layout (insertLFs : Bool) : Nat → List (List UInt8) → List UInt8
  | _, [] => []
  | index, group :: groups =>
    lineBreak insertLFs index ++ group ++ layout insertLFs (index + 1) groups

theorem layout_append (insertLFs : Bool) (index : Nat) (groups groups' : List (List UInt8)) :
    layout insertLFs index (groups ++ groups') =
      layout insertLFs index groups ++ layout insertLFs (index + groups.length) groups' := by
  induction groups generalizing index with
  | nil => rfl
  | cons group groups ih =>
    rw [List.cons_append, layout, layout, ih, List.length_cons, Nat.add_assoc, Nat.add_comm 1]
    simp only [List.append_assoc]

theorem length_lineBreak (index : Nat) :
    (lineBreak true index).length + (index - 1) / 19 = index / 19 := by
  unfold lineBreak
  split_ifs with h
  · simp only [List.length_singleton]
    omega
  · simp only [List.length_nil]
    simp only [true_and, not_and] at h
    omega

theorem length_layout_true (index : Nat) (groups : List (List UInt8)) :
    (layout true index groups).length + (index - 1) / 19 =
      groups.flatten.length + (index + groups.length - 1) / 19 := by
  induction groups generalizing index with
  | nil => simp [layout]
  | cons group groups ih =>
    have hbreak := length_lineBreak index
    have hrest := ih (index + 1)
    simp only [layout, List.length_append, List.flatten_cons, List.length_cons,
      Nat.add_sub_cancel] at hrest ⊢
    rw [show index + (groups.length + 1) - 1 = index + 1 + groups.length - 1 by omega]
    omega

theorem layout_false (index : Nat) (groups : List (List UInt8)) :
    layout false index groups = groups.flatten := by
  induction groups generalizing index with
  | nil => rfl
  | cons group groups ih => simp [layout, lineBreak, ih]

/-! ## Writing -/

theorem putAll_of_le {size : Nat} {out : List UInt8} (cs : List UInt8)
    (h : out.length + cs.length ≤ size) : putAll size out cs = some (out ++ cs) := by
  induction cs generalizing out with
  | nil => simp [putAll]
  | cons c cs ih =>
    rw [List.length_cons] at h
    have hput : put size out c = some (out ++ [c]) := if_pos (by omega)
    rw [putAll, List.foldlM_cons, hput]
    have hrest := @ih (out ++ [c]) (by rw [List.length_append, List.length_singleton]; omega)
    rw [putAll] at hrest
    simpa using hrest

/-- The value of `count` before the group with this number. -/
def countAt (insertLFs : Bool) (index : Nat) : Int := if insertLFs then 4 * index else 0

theorem putLineFeed_of_room {insertLFs isBreak : Bool} {index size : Nat} {out : List UInt8}
    (h : isBreak = true ↔ insertLFs ∧ index ≠ 0 ∧ index % 19 = 0)
    (hroom : out.length + (lineBreak insertLFs index).length ≤ size) :
    putLineFeed isBreak size out = some (out ++ lineBreak insertLFs index) := by
  unfold lineBreak at hroom ⊢
  cases isBreak with
  | false =>
    rw [if_neg (fun hbreak => Bool.false_ne_true (h.2 hbreak)), List.append_nil]
    rfl
  | true =>
    rw [if_pos (h.1 rfl), List.length_singleton] at hroom
    rw [if_pos (h.1 rfl), putLineFeed, if_pos rfl, put, if_pos (by omega)]

theorem countAt_break_iff (insertLFs : Bool) (index : Nat) :
    (insertLFs && countAt insertLFs index ≠ 0 && (countAt insertLFs index).tmod 76 = 0) = true ↔
      insertLFs ∧ index ≠ 0 ∧ index % 19 = 0 := by
  cases insertLFs with
  | false => simp
  | true =>
    simp only [countAt, if_true, Bool.true_and, Bool.and_eq_true, decide_eq_true_eq, true_and]
    rw [Int.tmod_eq_emod_of_nonneg (by omega)]
    omega

theorem countAt_pos_iff (insertLFs : Bool) (index : Nat) :
    (insertLFs && 0 < countAt insertLFs index && (countAt insertLFs index).tmod 76 = 0) = true ↔
      insertLFs ∧ index ≠ 0 ∧ index % 19 = 0 := by
  cases insertLFs with
  | false => simp
  | true =>
    simp only [countAt, if_true, Bool.true_and, Bool.and_eq_true, decide_eq_true_eq, true_and]
    rw [Int.tmod_eq_emod_of_nonneg (by omega)]
    omega

theorem nextCount_of_lt {insertLFs : Bool} {index : Nat}
    (h : insertLFs = true → 4 * (index + 1) < 2 ^ 31) :
    nextCount insertLFs (countAt insertLFs index) = some (countAt insertLFs (index + 1)) := by
  cases insertLFs with
  | false => rfl
  | true =>
    have hlt := h rfl
    have hint : IsInt 32 (4 * (index : Int) + 4) := by
      constructor
      · rw [show intMin 32 = -2147483648 from rfl]
        omega
      · rw [show intMax 32 = 2147483647 from rfl]
        omega
    simp only [nextCount, countAt, if_true, CheckedArithmetic.inType, if_pos hint]
    push_cast
    rw [mul_add, mul_one]

/-- `count` overflows with group 2^29. -/
theorem nextCount_overflow {index : Nat} (h : 2 ^ 29 ≤ index + 1) :
    nextCount true (countAt true index) = none := by
  have hint : ¬IsInt 32 (4 * (index : Int) + 4) := by
    rintro ⟨-, hmax⟩
    rw [show intMax 32 = 2147483647 from rfl] at hmax
    omega
  simp only [nextCount, countAt, if_true, CheckedArithmetic.inType, if_neg hint]

section
variable (encodeMap : List UInt8)

/-- The groups of characters of some groups of indices. -/
def charGroups (groups : List (List Nat)) : List (List UInt8) := groups.map (charsOf encodeMap)

variable {data : List UInt8}

theorem encodeLoop_of_room {insertLFs : Bool} {size index : Nat} {out : List UInt8}
    (hcount : insertLFs = true → 4 * (index + data.length / 3) < 2 ^ 31) (hroom : out.length +
      (layout insertLFs index (charGroups encodeMap (tripleGroups data))).length ≤ size) :
    encodeLoop encodeMap insertLFs size data (countAt insertLFs index) out =
      some (lastBytes data, countAt insertLFs (index + data.length / 3),
        out ++ layout insertLFs index (charGroups encodeMap (tripleGroups data))) := by
  fun_induction tripleGroups data generalizing index out with
  | case1 a b c data ih =>
    have hlength : (a :: b :: c :: data).length / 3 = data.length / 3 + 1 := by
      simp only [List.length_cons]
      omega
    rw [hlength] at hcount ⊢
    simp only [charGroups, List.map_cons, layout, List.length_append] at hroom ih ⊢
    have hbreak := putLineFeed_of_room (countAt_break_iff insertLFs index)
      (show out.length + _ ≤ size by omega)
    have hnext := nextCount_of_lt (fun h => by have := hcount h; omega :
      insertLFs = true → 4 * (index + 1) < 2 ^ 31)
    have hput := putAll_of_le (charsOf encodeMap (tripleIndices a.toNat b.toNat c.toNat))
      (show (out ++ lineBreak insertLFs index).length + _ ≤ size by
        rw [List.length_append]
        omega)
    rw [encodeLoop, hbreak]
    simp only [Option.bind_eq_bind, Option.bind_some, hnext, hput]
    rw [ih (fun h => by have := hcount h; omega) (by simp only [List.length_append]; omega)]
    simp only [lastBytes, List.append_assoc, Nat.add_assoc, Nat.add_comm 1]
  | case2 data hdata =>
    have hshort := length_lt_of_no_triple hdata
    rw [Nat.div_eq_of_lt hshort, encodeLoop, lastBytes]
    · simp [charGroups, layout]
    · exact hdata
    · exact hdata

theorem encodeTail_of_room {insertLFs : Bool} {size index : Nat} {rest out : List UInt8}
    (hrest : rest.length < 3)
    (hroom : out.length +
      (layout insertLFs index (charGroups encodeMap (lastGroups rest))).length ≤ size) :
    encodeTail encodeMap insertLFs size rest (countAt insertLFs index) out =
      some (out ++ layout insertLFs index (charGroups encodeMap (lastGroups rest))) := by
  have hlast (group : List UInt8)
      (hroom : out.length + (lineBreak insertLFs index).length + group.length ≤ size) :
      (putLineFeed (insertLFs && 0 < countAt insertLFs index &&
          (countAt insertLFs index).tmod 76 = 0) size out).bind (fun out => putAll size out group) =
        some (out ++ (lineBreak insertLFs index ++ group)) := by
    rw [putLineFeed_of_room (countAt_pos_iff insertLFs index) (by omega), Option.bind_some,
      putAll_of_le group (by rw [List.length_append]; omega), List.append_assoc]
  rcases rest with _ | ⟨a, _ | ⟨b, _ | ⟨c, rest⟩⟩⟩
  · simp [encodeTail, lastGroups, charGroups, layout]
  · simp only [lastGroups, charGroups, List.map_cons, List.map_nil, layout, List.append_nil,
      List.length_append] at hroom ⊢
    exact hlast _ (by omega)
  · simp only [lastGroups, charGroups, List.map_cons, List.map_nil, layout, List.append_nil,
      List.length_append] at hroom ⊢
    exact hlast _ (by omega)
  · simp only [List.length_cons] at hrest
    omega

theorem encodeLoop_overflow {size index limit : Nat} {out : List UInt8} (hlimit : limit = 2 ^ 29)
    (hindex : index < limit) (hcount : limit ≤ index + data.length / 3) :
    encodeLoop encodeMap true size data (countAt true index) out = none := by
  fun_induction tripleGroups data generalizing index out with
  | case1 a b c data ih =>
    have hlength : (a :: b :: c :: data).length / 3 = data.length / 3 + 1 := by
      simp only [List.length_cons]
      omega
    rw [hlength] at hcount
    rw [encodeLoop]
    rcases Nat.lt_or_ge (index + 1) limit with hlt | hge
    · have hnext : nextCount true (countAt true index) = some (countAt true (index + 1)) :=
        nextCount_of_lt fun _ => by omega
      rw [hnext]
      generalize putLineFeed _ size out = written
      rcases written with _ | out
      · rfl
      simp only [Option.bind_eq_bind, Option.bind_some]
      generalize putAll size out _ = written
      rcases written with _ | out
      · rfl
      · exact ih hlt (by omega)
    · rw [nextCount_overflow (hlimit ▸ hge)]
      simp only [Option.bind_eq_bind, Option.bind_none, Option.bind_fun_none]
  | case2 data hdata =>
    have hshort := length_lt_of_no_triple hdata
    omega

/-! ## The output -/

/-- The number of padding characters. -/
def padding (len : Nat) : Nat := (3 - len % 3) % 3

theorem length_flatten_indexGroups (data : List UInt8) :
    (indexGroups data).flatten.length + padding data.length = 4 * ((data.length + 2) / 3) := by
  unfold padding
  fun_induction indexGroups data with
  | case1 a b c data ih =>
    simp only [List.flatten_cons, List.length_append, List.length_cons, tripleIndices,
      List.length_nil]
    omega
  | case2 a b => simp [pairIndices]
  | case3 a => simp [singleIndices]
  | case4 => simp

theorem length_flatten_charGroups (groups : List (List Nat)) :
    (charGroups encodeMap groups).flatten.length = groups.flatten.length := by
  simp only [charGroups, List.length_flatten, List.map_map]
  congr 1
  exact List.map_congr_left fun group _ => List.length_map _

/-- The characters of the data, before the padding. -/
def encodedText (insertLFs : Bool) (data : List UInt8) : List UInt8 :=
  layout insertLFs 0 (charGroups encodeMap (indexGroups data))

/-- The line feeds fit into the unsigned length. -/
theorem outLength_lt {groups : Nat} (hgroups : groups ≤ 1059797124) :
    groups * 4 + (groups * 4 - 1) / 76 < 2 ^ 32 := by
  omega

theorem length_encodedText (policy : Base64EncodePolicy) (hmax : data.length ≤ maxInputBufferSize) :
    (encodedText encodeMap (outSize data.length policy).2 data).length + padding data.length =
      (outSize data.length policy).1 := by
  have hchars := length_flatten_indexGroups data
  have hgroups := length_indexGroups data
  rw [show maxInputBufferSize = 3179391370 from rfl] at hmax
  have hwrap : (data.length + 2) / 3 * 4 % 2 ^ 32 = (data.length + 2) / 3 * 4 := by omega
  rw [← length_flatten_charGroups encodeMap] at hchars
  simp only [encodedText, outSize, hwrap]
  by_cases hinsert : policy = .insertLFs ∧ (data.length + 2) / 3 * 4 > 76
  · have hlayout := length_layout_true 0 (charGroups encodeMap (indexGroups data))
    rw [show (charGroups encodeMap (indexGroups data)).length = (data.length + 2) / 3 by
      rw [charGroups, List.length_map, hgroups]] at hlayout
    have hbreaks : ((data.length + 2) / 3 * 4 - 1) / 76 = (0 + (data.length + 2) / 3 - 1) / 19 := by
      generalize (data.length + 2) / 3 = groups
      omega
    have hfits := outLength_lt (show (data.length + 2) / 3 ≤ 1059797124 by omega)
    rw [if_pos hinsert, decide_eq_true hinsert, Nat.mod_eq_of_lt hfits, hbreaks]
    omega
  · rw [if_neg hinsert, decide_eq_false hinsert, layout_false]
    omega

theorem encodedText_eq (insertLFs : Bool) (data : List UInt8) :
    encodedText encodeMap insertLFs data =
      layout insertLFs 0 (charGroups encodeMap (tripleGroups data)) ++
        layout insertLFs (data.length / 3)
          (charGroups encodeMap (lastGroups (lastBytes data))) := by
  rw [encodedText, indexGroups_eq, charGroups, List.map_append, layout_append, List.length_map,
    length_tripleGroups, Nat.zero_add]
  rfl

theorem outSize_snd_iff (len : Nat) (policy : Base64EncodePolicy) :
    (outSize len policy).2 = true ↔ policy = .insertLFs ∧ (len + 2) / 3 * 4 % 2 ^ 32 > 76 :=
  decide_eq_true_iff

/-- With room for all characters, the two parts of the encoder write them. -/
theorem encode_of_room {insertLFs : Bool} {size : Nat}
    (hcount : insertLFs = true → data.length / 3 < 2 ^ 29)
    (hroom : (encodedText encodeMap insertLFs data).length ≤ size) :
    ∃ rest count out, encodeLoop encodeMap insertLFs size data 0 [] = some (rest, count, out) ∧
      encodeTail encodeMap insertLFs size rest count out =
        some (encodedText encodeMap insertLFs data) := by
  rw [encodedText_eq, List.length_append] at hroom
  rw [encodedText_eq]
  have hstart : countAt insertLFs 0 = 0 := by simp [countAt]
  rw [← hstart]
  refine ⟨_, _, _, encodeLoop_of_room encodeMap (fun h => ?_) ?_, ?_⟩
  · have hlt := hcount h
    omega
  · rw [List.length_nil]
    omega
  · rw [Nat.zero_add, List.nil_append]
    refine encodeTail_of_room encodeMap ?_ hroom
    rw [length_lastBytes]
    omega

/-- Within the limit, the encoder writes the characters and the padding, if `count` does not
overflow. -/
theorem base64EncodeInternal_eq {policy : Base64EncodePolicy}
    (hmax : data.length ≤ maxInputBufferSize)
    (hcount : policy = .insertLFs → data.length / 3 < 2 ^ 29) :
    base64EncodeInternal data policy encodeMap =
      some (encodedText encodeMap (outSize data.length policy).2 data ++
        if policy = .urlPolicy then [] else List.replicate (padding data.length) equalsSign) := by
  rcases Nat.eq_zero_or_pos data.length with hempty | hpos
  · rw [List.eq_nil_of_length_eq_zero hempty]
    simp [base64EncodeInternal, encodedText, indexGroups, charGroups, layout, padding]
  have hlength := length_encodedText encodeMap policy hmax
  have hflag (h : (outSize data.length policy).2 = true) : data.length / 3 < 2 ^ 29 :=
    hcount ((outSize_snd_iff _ _).1 h).1
  obtain ⟨rest, count, out, hloop, htail⟩ :=
    encode_of_room encodeMap hflag (show _ ≤ (outSize data.length policy).1 by omega)
  rw [base64EncodeInternal, if_neg hpos.ne', if_neg hmax.not_gt]
  simp only [hloop, htail, Option.bind_eq_bind, Option.bind_some]
  split_ifs with hpolicy
  · rw [List.append_nil]
  · rw [← hlength, Nat.add_sub_cancel_left]

/-- With line feeds, `count` overflows on data of 2^29 triples. -/
theorem base64EncodeInternal_overflow (hmax : data.length ≤ maxInputBufferSize)
    (hcount : 2 ^ 29 ≤ data.length / 3) :
    base64EncodeInternal data .insertLFs encodeMap = none := by
  have hlimit : maxInputBufferSize = 3179391370 := rfl
  rw [hlimit] at hmax
  have hflag : (outSize data.length .insertLFs).2 = true := by
    refine (outSize_snd_iff _ _).2 ⟨rfl, ?_⟩
    omega
  obtain ⟨size, hsize⟩ : ∃ size, outSize data.length .insertLFs = (size, true) :=
    ⟨_, Prod.ext rfl hflag⟩
  have hloop : encodeLoop encodeMap true size data 0 [] = none :=
    encodeLoop_overflow encodeMap rfl (Nat.two_pow_pos 29) (by rwa [Nat.zero_add])
  rw [base64EncodeInternal, if_neg (by omega), if_neg (by rw [hlimit]; omega), hsize]
  simp only [hloop, Option.bind_eq_bind, Option.bind_none]

end

/-! ## Lines -/

/-- Every line but the last has 76 characters, and the last one is not empty. -/
structure Lines (text : List UInt8) : Prop where
  full : ∀ line ∈ (text.splitOn lineFeed).dropLast, line.length = 76
  last : text.getLast? ≠ some lineFeed

theorem Lines.of_line {line : List UInt8} (h : lineFeed ∉ line) : Lines line where
  full := by simp [List.splitOn_eq_singleton h]
  last hlast := h (List.mem_of_getLast? hlast)

theorem Lines.cons {line text : List UInt8} (hline : lineFeed ∉ line) (hlength : line.length = 76)
    (htext : text ≠ []) (h : Lines text) : Lines (line ++ lineFeed :: text) where
  full := by
    rw [List.splitOn_append_cons_self_of_not_mem hline,
      List.dropLast_cons_of_ne_nil (List.splitOn_ne_nil _ _), List.forall_mem_cons]
    exact ⟨hlength, h.full⟩
  last := by
    rw [List.getLast?_append_of_ne_nil _ (List.cons_ne_nil _ _), List.getLast?_cons_of_ne_nil htext]
    exact h.last

/-- A line that has been begun, followed by groups from the group with this number on. -/
theorem lines_layout {index : Nat} {line : List UInt8} {groups : List (List UInt8)}
    (hindex : 0 < index) (hline : lineFeed ∉ line)
    (hlength : line.length = 4 * ((index - 1) % 19 + 1))
    (hgroups : ∀ group ∈ groups, group.length = 4 ∧ lineFeed ∉ group) :
    Lines (line ++ layout true index groups) := by
  induction groups generalizing index line with
  | nil =>
    rw [layout, List.append_nil]
    exact .of_line hline
  | cons group groups ih =>
    obtain ⟨hfour, hgroup⟩ := hgroups group List.mem_cons_self
    have hrest : ∀ group ∈ groups, group.length = 4 ∧ lineFeed ∉ group :=
      fun group hmem => hgroups group (List.mem_cons_of_mem _ hmem)
    rw [layout, lineBreak]
    split_ifs with hbreak
    · have hfrom := ih (Nat.succ_pos index) hgroup (by rw [Nat.succ_sub_one]; omega) hrest
      have hne : group ++ layout true (index + 1) groups ≠ [] := by
        rw [← List.length_pos_iff, List.length_append]
        omega
      simpa using hfrom.cons hline (by omega) hne
    · have hjoined : (line ++ group).length = 4 * ((index + 1 - 1) % 19 + 1) := by
        simp only [true_and, not_and] at hbreak
        rw [List.length_append]
        omega
      simpa using ih (Nat.succ_pos index) (by simp [hline, hgroup]) hjoined hrest

section
variable (encodeMap : List UInt8)

/-- A group filled up with padding. -/
def paddedGroup (group : List UInt8) : List UInt8 :=
  group ++ List.replicate (4 - group.length) equalsSign

/-- The padding belongs to the last group. -/
theorem layout_padding (insertLFs : Bool) (index : Nat) (data : List UInt8) :
    layout insertLFs index (charGroups encodeMap (indexGroups data)) ++
        List.replicate (padding data.length) equalsSign =
      layout insertLFs index ((charGroups encodeMap (indexGroups data)).map paddedGroup) := by
  fun_induction indexGroups data generalizing index with
  | case1 a b c data ih =>
    have hpadding : padding (a :: b :: c :: data).length = padding data.length := by
      simp only [padding, List.length_cons]
      omega
    have hfull : paddedGroup (charsOf encodeMap (tripleIndices a.toNat b.toNat c.toNat)) =
        charsOf encodeMap (tripleIndices a.toNat b.toNat c.toNat) := by
      simp [paddedGroup, charsOf, tripleIndices]
    rw [hpadding]
    simp only [charGroups, List.map_cons, layout, hfull, List.append_assoc] at ih ⊢
    rw [ih]
  | case2 a b => simp [charGroups, layout, padding, paddedGroup, charsOf, pairIndices]
  | case3 a => simp [charGroups, layout, padding, paddedGroup, charsOf, singleIndices]
  | case4 => simp [charGroups, layout, padding]

theorem length_le_of_mem_indexGroups {data : List UInt8} {group : List Nat}
    (h : group ∈ indexGroups data) : group.length ≤ 4 := by
  fun_induction indexGroups data with
  | case1 a b c data ih =>
    rcases List.mem_cons.1 h with rfl | h
    · exact Nat.le_refl 4
    · exact ih h
  | case2 a b =>
    simp [List.mem_singleton.1 h, pairIndices]
  | case3 a =>
    simp [List.mem_singleton.1 h, singleIndices]
  | case4 => cases h

theorem paddedGroup_of_mem {encodeMap : List UInt8} (hmap : lineFeed ∉ encodeMap)
    {data group : List UInt8}
    (h : group ∈ (charGroups encodeMap (indexGroups data)).map paddedGroup) :
    group.length = 4 ∧ lineFeed ∉ group := by
  simp only [charGroups, List.map_map, List.mem_map, Function.comp_apply] at h
  obtain ⟨indices, hindices, rfl⟩ := h
  have hle := length_le_of_mem_indexGroups hindices
  refine ⟨?_, ?_⟩
  · rw [paddedGroup, charsOf, List.length_append, List.length_map, List.length_replicate]
    omega
  · intro hmem
    rcases List.mem_append.1 hmem with hchar | hpad
    · obtain ⟨index, -, hindex⟩ := List.mem_map.1 hchar
      rw [List.getD_eq_getElem?_getD] at hindex
      cases hget : encodeMap[index]? with
      | none =>
        rw [hget] at hindex
        exact absurd hindex (by decide)
      | some c =>
        rw [hget, Option.getD_some] at hindex
        exact hmap (hindex ▸ List.mem_of_getElem? hget)
    · exact absurd (List.eq_of_mem_replicate hpad) (by decide)

/-- The lines of the padded output. -/
theorem lines_encodedText {encodeMap : List UInt8} (hmap : lineFeed ∉ encodeMap) (insertLFs : Bool)
    (data : List UInt8) :
    Lines (encodedText encodeMap insertLFs data ++
      List.replicate (padding data.length) equalsSign) := by
  rw [encodedText, layout_padding]
  have hgroups := fun group => @paddedGroup_of_mem encodeMap hmap data group
  generalize (charGroups encodeMap (indexGroups data)).map paddedGroup = groups at hgroups ⊢
  cases insertLFs with
  | false =>
    rw [layout_false]
    refine .of_line fun hmem => ?_
    obtain ⟨group, hgroup, hmem⟩ := List.mem_flatten.1 hmem
    exact (hgroups group hgroup).2 hmem
  | true =>
    rcases groups with _ | ⟨group, groups⟩
    · exact .of_line (List.not_mem_nil)
    · obtain ⟨hfour, hgroup⟩ := hgroups group List.mem_cons_self
      exact lines_layout Nat.one_pos hgroup hfour
        fun group hmem => hgroups group (List.mem_cons_of_mem _ hmem)

end

end Odyssey.WTF.Base64
