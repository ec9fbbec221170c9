import Mathlib.Data.List.Induction
import Odyssey.Network.Cookies.CookieParser

/-!
# The loops of the cookie parser

What each loop does when it reads a known piece of the header. Positions are absolute; that `w`
stands at position `i` is written `s.drop i = w ++ rest`.
-/
namespace Odyssey.Network.Cookies

open WTF

section Drop

variable {s w rest : Text} {i : Nat} {c : UInt16}

theorem charAt_of_drop (at' : s.drop i = c :: rest) : s.charAt i = c := by
  have eq : s[i]? = some c := by
    rw [← List.head?_drop, at', List.head?_cons]
  rw [Text.charAt, List.getD_eq_getElem?_getD, eq, Option.getD_some]

theorem charAt_of_drop_eq_nil (at' : s.drop i = []) : s.charAt i = 0 := by
  have le : s.length ≤ i := List.drop_eq_nil_iff.mp at'
  rw [Text.charAt, List.getD_eq_getElem?_getD, List.getElem?_eq_none le, Option.getD_none]

theorem drop_add_of_drop (at' : s.drop i = w ++ rest) : s.drop (i + w.length) = rest := by
  rw [← List.drop_drop, at', List.drop_left]

theorem drop_succ_of_drop (at' : s.drop i = c :: rest) : s.drop (i + 1) = rest :=
  drop_add_of_drop (w := [c]) at'

theorem substring_of_drop (at' : s.drop i = w ++ rest) : s.substring i w.length = w := by
  rw [Text.substring, at', List.take_left]

end Drop

section Skip

variable {p : UInt16 → Bool} {s w rest : Text} {i : Nat}

theorem skip_append (at' : s.drop i = w ++ rest) (all : ∀ c ∈ w, p c = true) (n : Nat) :
    skip p s i (w.length + n) = skip p s (i + w.length) n := by
  induction w generalizing i with
  | nil => simp
  | cons c w ih =>
    have first : p (s.charAt i) = true := by
      rw [charAt_of_drop at']
      exact all c List.mem_cons_self
    have eq : (c :: w).length + n = w.length + n + 1 := by rw [List.length_cons]; omega
    rw [eq, skip, if_pos first, ih (drop_succ_of_drop at')
      fun d mem => all d (List.mem_cons_of_mem _ mem), List.length_cons]
    congr 1
    omega

/-- One more character in the limit. -/
theorem skip_succ (n : Nat) :
    skip p s i (n + 1) =
      if skip p s i n = i + n ∧ p (s.charAt (i + n)) = true then i + n + 1 else skip p s i n := by
  induction n generalizing i with
  | zero =>
    rw [skip]
    simp [skip]
  | succ n ih =>
    rw [skip, ih, skip]
    by_cases passes : p (s.charAt i) = true
    · simp only [if_pos passes, Nat.add_right_comm i 1 n, ← Nat.add_assoc]
    · have ne : i ≠ i + (n + 1) := by omega
      rw [if_neg passes, if_neg passes, if_neg fun h => ne h.1]

theorem le_skip (n : Nat) : i ≤ skip p s i n ∧ skip p s i n ≤ i + n := by
  induction n generalizing i with
  | zero => exact ⟨le_rfl, le_rfl⟩
  | succ n ih =>
    rw [skip]
    split_ifs
    · obtain ⟨lower, upper⟩ := ih (i := i + 1)
      omega
    · omega

theorem skip_stop (stops : p (s.charAt i) = false) (n : Nat) : skip p s i n = i := by
  cases n with
  | zero => rfl
  | succ n => rw [skip, if_neg (by rw [stops]; exact Bool.false_ne_true)]

/-- Blanks in front of something else, or in front of the limit. -/
theorem skipSpaces_append (at' : s.drop i = w ++ rest)
    (blank : ∀ c ∈ w, isLightweightSpace c = true) {limit : Nat} (le : i + w.length ≤ limit)
    (stops : i + w.length = limit ∨ isLightweightSpace (s.charAt (i + w.length)) = false) :
    skipSpaces s i limit = i + w.length := by
  have count : limit - i = w.length + (limit - (i + w.length)) := by omega
  rw [skipSpaces, count, skip_append at' blank]
  rcases stops with eq | stops
  · rw [← eq, Nat.sub_self, skip]
  · exact skip_stop stops _

end Skip

section Trim

variable {s w rest : Text} {i start : Nat}

theorem trimSpaces_append (at' : s.drop i = w ++ rest)
    (blank : ∀ c ∈ w, isLightweightSpace c = true) (le : start ≤ i) :
    trimSpaces s start (i + w.length) = trimSpaces s start i := by
  induction w using List.reverseRecOn generalizing rest with
  | nil => rfl
  | append_singleton w c ih =>
    rw [List.append_assoc] at at'
    have last : isLightweightSpace (s.charAt (i + w.length)) = true := by
      rw [charAt_of_drop (drop_add_of_drop at')]
      exact blank c (List.mem_append_right _ List.mem_cons_self)
    rw [List.length_append, List.length_singleton, ← Nat.add_assoc, trimSpaces,
      if_pos ⟨by omega, last⟩]
    exact ih at' fun d mem => blank d (List.mem_append_left _ mem)

/-- A token without a blank at its end. -/
theorem trimSpaces_stop
    (stops : i = start ∨ start < i ∧ isLightweightSpace (s.charAt (i - 1)) = false) :
    trimSpaces s start i = i := by
  cases i with
  | zero => rfl
  | succ i =>
    rw [trimSpaces, if_neg]
    rintro ⟨lt, blank⟩
    rcases stops with eq | ⟨-, notBlank⟩
    · omega
    · rw [Nat.add_sub_cancel, blank] at notBlank
      cases notBlank

theorem trimName_append (at' : s.drop (i + 1) = w ++ rest)
    (blank : ∀ c ∈ w, isLightweightSpace c = true) :
    trimName s (i + w.length) = trimName s i := by
  induction w using List.reverseRecOn generalizing rest with
  | nil => rfl
  | append_singleton w c ih =>
    rw [List.append_assoc] at at'
    have last : isLightweightSpace (s.charAt (i + w.length + 1)) = true := by
      have := charAt_of_drop (drop_add_of_drop at')
      rw [show i + w.length + 1 = i + 1 + w.length by omega, this]
      exact blank c (List.mem_append_right _ List.mem_cons_self)
    rw [List.length_append, List.length_singleton, ← Nat.add_assoc, trimName, if_pos last]
    exact ih at' fun d mem => blank d (List.mem_append_left _ mem)

theorem trimName_stop (stops : isLightweightSpace (s.charAt i) = false) : trimName s i = i := by
  cases i with
  | zero => rfl
  | succ i => rw [trimName, if_neg (by rw [stops]; exact Bool.false_ne_true)]

end Trim

section Token

variable {s w v w' rest : Text} {i : Nat}

/-- A check of each character of a text, by evaluating it. -/
theorem forall_mem_of_all {w : Text} {P : UInt16 → Prop} [DecidablePred P]
    (h : w.all (fun c => decide (P c)) = true) : ∀ c ∈ w, P c := by
  simpa using h

/-- No blank at either end. -/
def Trimmed (w : Text) : Prop :=
  (∀ c ∈ w.head?, isLightweightSpace c = false) ∧ ∀ c ∈ w.getLast?, isLightweightSpace c = false

theorem Trimmed.charAt_first (trimmed : Trimmed w) (ne : w ≠ []) (at' : s.drop i = w ++ rest) :
    isLightweightSpace (s.charAt i) = false := by
  obtain ⟨c, w, rfl⟩ := List.exists_cons_of_ne_nil ne
  rw [charAt_of_drop at']
  exact trimmed.1 c rfl

theorem Trimmed.charAt_last (trimmed : Trimmed w) (ne : w ≠ []) (at' : s.drop i = w ++ rest) :
    isLightweightSpace (s.charAt (i + w.length - 1)) = false := by
  obtain ⟨w, c, rfl⟩ := (List.eq_nil_or_concat' w).resolve_left ne
  rw [List.append_assoc] at at'
  rw [List.length_append, List.length_singleton, ← Nat.add_assoc, Nat.add_sub_cancel,
    charAt_of_drop (drop_add_of_drop at')]
  exact trimmed.2 c (by simp)

/-- What is left of a token between blanks. -/
theorem substring_trimmed (at' : s.drop i = w ++ (v ++ (w' ++ rest)))
    (blank : ∀ c ∈ w, isLightweightSpace c = true)
    (blank' : ∀ c ∈ w', isLightweightSpace c = true) (trimmed : Trimmed v) {limit start : Nat}
    (eq : limit = i + w.length + v.length + w'.length) (eq' : skipSpaces s i limit = start) :
    s.substring start (trimSpaces s start limit - start) = v := by
  by_cases empty : v = []
  · subst empty
    have start_eq : start = limit := by
      have at'' : s.drop i = (w ++ w') ++ rest := by rw [at', List.nil_append, List.append_assoc]
      rw [List.length_nil, Nat.add_zero] at eq
      have total : i + (w ++ w').length = limit := by rw [List.length_append, eq]; omega
      rw [← eq', skipSpaces_append at'' (fun c mem => ?_) total.le (.inl total), total]
      rcases List.mem_append.mp mem with mem | mem
      · exact blank c mem
      · exact blank' c mem
    rw [start_eq, trimSpaces_stop (.inl rfl), Nat.sub_self, Text.substring, List.take_zero]
  · have token := drop_add_of_drop at'
    have positive := List.length_pos_of_ne_nil empty
    have start_eq : start = i + w.length := by
      rw [← eq']
      exact skipSpaces_append at' blank (by omega) (.inr (trimmed.charAt_first empty token))
    have stop_eq : trimSpaces s start limit = i + w.length + v.length := by
      rw [eq, start_eq, trimSpaces_append (drop_add_of_drop token) blank' (by omega)]
      exact trimSpaces_stop (.inr ⟨by omega, trimmed.charAt_last empty token⟩)
    rw [stop_eq, start_eq, Nat.add_sub_cancel_left, substring_of_drop token]

end Token

section FirstPair

variable {s w rest : Text} {start stop tokenEnd pairEnd : Nat} {foundEqual : Bool}

/-- Characters without a meaning in the first pair; a further `=` has none. -/
theorem scanFirstPair_append (at' : s.drop pairEnd = w ++ rest)
    (plain : ∀ c ∈ w, c ≠ 59 ∧ c ≠ 34 ∧ (c = 61 → tokenEnd ≠ start))
    (le : pairEnd + w.length ≤ stop) (n : Nat) :
    scanFirstPair s start stop (w.length + n) ⟨tokenEnd, pairEnd, foundEqual⟩ =
      scanFirstPair s start stop n ⟨tokenEnd, pairEnd + w.length, foundEqual⟩ := by
  induction w generalizing pairEnd with
  | nil => simp
  | cons c w ih =>
    obtain ⟨notSemicolon, notQuote, equal⟩ := plain c List.mem_cons_self
    have first := charAt_of_drop at'
    rw [List.length_cons] at le
    have eq : (c :: w).length + n = w.length + n + 1 := by rw [List.length_cons]; omega
    have step : scanFirstPair s start stop (w.length + n + 1) ⟨tokenEnd, pairEnd, foundEqual⟩ =
        scanFirstPair s start stop (w.length + n) ⟨tokenEnd, pairEnd + 1, foundEqual⟩ := by
      rw [scanFirstPair, first, if_pos ⟨by dsimp only; omega, notSemicolon⟩]
      split_ifs with isEqual here
      · exact absurd here (equal isEqual)
      · rfl
      · rfl
    rw [eq, step, ih (drop_succ_of_drop at') (fun d mem => plain d (List.mem_cons_of_mem _ mem))
      (by omega), List.length_cons, Nat.add_assoc, Nat.add_comm 1]

/-- The first `=`. -/
theorem scanFirstPair_equal (at' : s.charAt pairEnd = 61) (lt : pairEnd < stop)
    (first : tokenEnd = start) (n : Nat) :
    scanFirstPair s start stop (n + 1) ⟨tokenEnd, pairEnd, foundEqual⟩ =
      scanFirstPair s start stop n ⟨pairEnd, pairEnd + 1, true⟩ := by
  rw [scanFirstPair, at', if_pos ⟨lt, by decide⟩, if_pos rfl, if_pos first]

/-- The end of the pair. -/
theorem scanFirstPair_stop (stops : pairEnd = stop ∨ s.charAt pairEnd = 59) (n : Nat) :
    scanFirstPair s start stop n ⟨tokenEnd, pairEnd, foundEqual⟩ =
      ⟨tokenEnd, pairEnd, foundEqual⟩ := by
  cases n with
  | zero => rfl
  | succ n =>
    rw [scanFirstPair, if_neg]
    rintro ⟨lt, ne⟩
    rcases stops with eq | eq
    · dsimp only at lt
      omega
    · exact ne eq

end FirstPair

section Pair

variable {s w rest : Text} {start tokenEnd pairEnd : Nat}

/-- One more character in the limit. -/
theorem scanPair_succ (n : Nat) :
    scanPair s start (n + 1) (tokenEnd, pairEnd) =
      if (scanPair s start n (tokenEnd, pairEnd)).2 = pairEnd + n ∧ s.charAt (pairEnd + n) ≠ 59 then
        (if (scanPair s start n (tokenEnd, pairEnd)).1 = start ∧ s.charAt (pairEnd + n) = 61 then
          pairEnd + n else (scanPair s start n (tokenEnd, pairEnd)).1, pairEnd + n + 1)
      else scanPair s start n (tokenEnd, pairEnd) := by
  induction n generalizing tokenEnd pairEnd with
  | zero =>
    rw [scanPair]
    simp [scanPair]
  | succ n ih =>
    rw [scanPair, ih, scanPair]
    by_cases plain : s.charAt pairEnd ≠ 59
    · simp only [if_pos plain, Nat.add_right_comm pairEnd 1 n, ← Nat.add_assoc]
    · have ne : pairEnd ≠ pairEnd + (n + 1) := by omega
      rw [if_neg plain, if_neg plain, if_neg fun h => ne h.1]

/-- The loop stays between its first position and its limit and passes no `;`. -/
theorem scanPair_spec (n : Nat) :
    (scanPair s start n (tokenEnd, pairEnd)).2 ≤ pairEnd + n ∧
      pairEnd ≤ (scanPair s start n (tokenEnd, pairEnd)).2 ∧
      (∀ i, pairEnd ≤ i → i < (scanPair s start n (tokenEnd, pairEnd)).2 → s.charAt i ≠ 59) ∧
      ((scanPair s start n (tokenEnd, pairEnd)).1 = tokenEnd ∨
        pairEnd ≤ (scanPair s start n (tokenEnd, pairEnd)).1 ∧
          (scanPair s start n (tokenEnd, pairEnd)).1 <
            (scanPair s start n (tokenEnd, pairEnd)).2) := by
  induction n generalizing tokenEnd pairEnd with
  | zero =>
    exact ⟨le_rfl, le_rfl, fun i le lt => absurd le (by rw [scanPair] at lt; omega), .inl rfl⟩
  | succ n ih =>
    rw [scanPair]
    split_ifs with plain isEqual
    · obtain ⟨upper, lower, passed, token⟩ := @ih pairEnd (pairEnd + 1)
      refine ⟨by omega, by omega, fun i le lt => ?_, .inr (by omega)⟩
      rcases Nat.eq_or_lt_of_le le with rfl | after
      · exact plain
      · exact passed i after lt
    · obtain ⟨upper, lower, passed, token⟩ := @ih tokenEnd (pairEnd + 1)
      refine ⟨by omega, by omega, fun i le lt => ?_, token.imp_right fun h => ⟨by omega, h.2⟩⟩
      rcases Nat.eq_or_lt_of_le le with rfl | after
      · exact plain
      · exact passed i after lt
    · exact ⟨by omega, le_rfl, fun i le lt => absurd le (by dsimp only at lt; omega), .inl rfl⟩

end Pair

/-! ## Comparison without case -/

/-- The characters of ASCII that are not letters. -/
def isASCIISymbol (c : UInt16) : Bool :=
  decide (c < 128) && !(decide (65 ≤ c) && decide (c ≤ 90)) &&
    !(decide (97 ≤ c) && decide (c ≤ 122))

/-- What is used of the conversions of the string library: text equals itself, and no conversion
makes or takes away a symbol. -/
structure Platform.IgnoresCase (p : Platform) : Prop where
  refl : ∀ s, p.equalIgnoringCase s s = true
  dot : ∀ c s t, p.equalIgnoringCase (c :: s) (46 :: t) = (c == 46 && p.equalIgnoringCase s t)
  count : ∀ s t, p.equalIgnoringCase s t = true →
    ∀ c, isASCIISymbol c = true → s.count c = t.count c
  lower : ∀ s, (p.lower s).count 46 = s.count 46

theorem toASCIILower_eq_iff {c : UInt16} (symbol : isASCIISymbol c = true) (d : UInt16) :
    toASCIILower d = c ↔ d = c := by
  simp only [isASCIISymbol, Bool.and_eq_true, Bool.not_eq_true', decide_eq_true_eq,
    Bool.and_eq_false_iff, decide_eq_false_iff_not, UInt16.not_le, UInt16.lt_iff_toNat_lt] at symbol
  rw [toASCIILower]
  split_ifs with upper
  · simp only [UInt16.le_iff_toNat_le, ← UInt16.toNat_inj, UInt16.toNat_add] at upper ⊢
    have c65 : (65 : UInt16).toNat = 65 := rfl
    have c90 : (90 : UInt16).toNat = 90 := rfl
    have c97 : (97 : UInt16).toNat = 97 := rfl
    have c122 : (122 : UInt16).toNat = 122 := rfl
    have c32 : (32 : UInt16).toNat = 32 := rfl
    omega
  · rfl

theorem count_map_toASCIILower {c : UInt16} (symbol : isASCIISymbol c = true) (s : Text) :
    (s.map toASCIILower).count c = s.count c := by
  induction s with
  | nil => rfl
  | cons d s ih =>
    have eq : (toASCIILower d == c) = (d == c) := by
      rw [Bool.eq_iff_iff, beq_iff_eq, beq_iff_eq, toASCIILower_eq_iff symbol]
    rw [List.map_cons, List.count_cons, List.count_cons, ih, eq]

theorem asciiPlatform_ignoresCase : asciiPlatform.IgnoresCase where
  refl s := by simp [asciiPlatform]
  dot c s t := by
    have eq : (toASCIILower c == toASCIILower 46) = (c == 46) := by
      rw [Bool.eq_iff_iff, beq_iff_eq, beq_iff_eq]
      exact toASCIILower_eq_iff (c := 46) (by decide) c
    simp only [asciiPlatform, List.map_cons]
    rw [← eq]
    rfl
  count s t equal c symbol := by
    have eq : s.map toASCIILower = t.map toASCIILower := by simpa [asciiPlatform] using equal
    rw [← count_map_toASCIILower symbol s, eq, count_map_toASCIILower symbol t]
  lower s := count_map_toASCIILower (by decide) s

/-! ## Lines -/

/-- The positions of the lines, of which the first starts at `start`. An empty line counts only at
the end of the header. -/
def spansFrom (start : Nat) : List Text → List (Nat × Nat)
  | [] => []
  | [line] => [(start, start + line.length)]
  | line :: lines =>
    (if line = [] then [] else [(start, start + line.length)]) ++
      spansFrom (start + line.length + 1) lines

/-- The positions of the lines of a header. -/
def lineSpans (s : Text) : List (Nat × Nat) :=
  if s = [] then [] else spansFrom 0 (s.splitOnP isCookieHeaderSeparator)

theorem spansFrom_cons (start : Nat) (line : Text) {lines : List Text} (ne : lines ≠ []) :
    spansFrom start (line :: lines) =
      (if line = [] then [] else [(start, start + line.length)]) ++
        spansFrom (start + line.length + 1) lines := by
  cases lines with
  | nil => exact absurd rfl ne
  | cons next lines => rfl

theorem exists_line (s : Text) :
    (∀ c ∈ s, isCookieHeaderSeparator c = false) ∨
      ∃ line c rest, s = line ++ c :: rest ∧ (∀ d ∈ line, isCookieHeaderSeparator d = false) ∧
        isCookieHeaderSeparator c = true := by
  induction s with
  | nil => exact .inl (by simp)
  | cons c s ih =>
    cases separator : isCookieHeaderSeparator c with
    | true => exact .inr ⟨[], c, s, rfl, by simp, separator⟩
    | false =>
      rcases ih with none | ⟨line, d, rest, rfl, plain, found⟩
      · exact .inl (List.forall_mem_cons.mpr ⟨separator, none⟩)
      · exact .inr ⟨c :: line, d, rest, rfl, List.forall_mem_cons.mpr ⟨separator, plain⟩, found⟩

theorem splitOnP_line {line rest : Text} {c : UInt16}
    (plain : ∀ c ∈ line, isCookieHeaderSeparator c = false)
    (separator : isCookieHeaderSeparator c = true) :
    (line ++ c :: rest).splitOnP isCookieHeaderSeparator =
      line :: rest.splitOnP isCookieHeaderSeparator := by
  rw [List.splitOnP_append_cons _ _ separator, List.splitOnP_eq_singleton fun c mem => plain c mem,
    List.singleton_append]

/-- A text between separators, or at an end of the header, is a line. -/
theorem mem_spansFrom {line after : Text} (ne : line ≠ [])
    (plain : ∀ c ∈ line, isCookieHeaderSeparator c = false)
    (ends : ∀ c ∈ after.head?, isCookieHeaderSeparator c = true) (n : Nat) :
    ∀ (before : Text) (start : Nat), before.length ≤ n →
      (∀ c ∈ before.getLast?, isCookieHeaderSeparator c = true) →
      (start + before.length, start + before.length + line.length) ∈
        spansFrom start ((before ++ (line ++ after)).splitOnP isCookieHeaderSeparator) := by
  induction n with
  | zero =>
    intro before start le begins
    obtain rfl : before = [] := List.eq_nil_of_length_eq_zero (by omega)
    rw [List.nil_append, List.length_nil, Nat.add_zero]
    cases after with
    | nil =>
      rw [List.append_nil, List.splitOnP_eq_singleton fun c mem => plain c mem]
      exact List.mem_singleton_self _
    | cons c after =>
      rw [splitOnP_line plain (ends c rfl), spansFrom_cons _ _ (List.splitOnP_ne_nil _ _),
        if_neg ne]
      exact List.mem_cons_self
  | succ n ih =>
    intro before start le begins
    rcases exists_line before with none | ⟨first, c, before, rfl, plain', separator⟩
    · rcases List.eq_nil_or_concat' before with rfl | ⟨before, c, rfl⟩
      · exact ih [] start (Nat.zero_le _) (by simp)
      · have := begins c (by simp)
        rw [none c (by simp)] at this
        cases this
    · rw [List.length_append, List.length_cons] at le ⊢
      rw [List.append_assoc, List.cons_append, splitOnP_line plain' separator,
        spansFrom_cons _ _ (List.splitOnP_ne_nil _ _)]
      have := ih before (start + first.length + 1) (by omega) fun d mem => begins d (by
        rcases List.eq_nil_or_concat' before with rfl | ⟨before, e, rfl⟩
        · cases mem
        · rw [List.getLast?_concat] at mem
          rw [← List.cons_append, ← List.append_assoc, List.getLast?_concat]
          exact mem)
      rw [show start + (first.length + (before.length + 1)) =
        start + first.length + 1 + before.length by omega]
      exact List.mem_append_right _ this

namespace CookieParser

variable {p : Platform} {parser : CookieParser} {s : Text} {time : ℚ}

theorem parseLines_succ {count i lineEnd : Nat} (le : i ≤ s.length)
    (eq : skip (fun c => !isCookieHeaderSeparator c) s i (s.length + 1 - i) = lineEnd) :
    parser.parseLines p s time (count + 1) i =
      if i = lineEnd then parser.parseLines p s time count (lineEnd + 1)
      else
        (parser.parseOneCookie p s i
          ((if lineEnd < s.length ∧ isCookieHeaderSeparator (s.charAt lineEnd) = true then
            lineEnd + 1 else lineEnd) - 1) time).toList ++
          parser.parseLines p s time count
            (if lineEnd < s.length ∧ isCookieHeaderSeparator (s.charAt lineEnd) = true then
              lineEnd + 1 else lineEnd) := by
  rw [parseLines, if_pos le, eq]

/-- The last line reaches one character beyond the end of the header. -/
theorem parseLines_last {i : Nat} {rest : Text} (at' : s.drop i = rest)
    (plain : ∀ c ∈ rest, isCookieHeaderSeparator c = false) (le : i ≤ s.length) {count : Nat}
    (fuel : s.length + 1 - i ≤ count) :
    parser.parseLines p s time count i = (parser.parseOneCookie p s i s.length time).toList := by
  have length : i + rest.length = s.length := by rw [← at', List.length_drop]; omega
  have line : skip (fun c => !isCookieHeaderSeparator c) s i (s.length + 1 - i) = s.length + 1 := by
    have here : s.drop i = rest ++ [] := by rw [at', List.append_nil]
    have beyond : s.charAt s.length = 0 := charAt_of_drop_eq_nil List.drop_length
    rw [show s.length + 1 - i = rest.length + 1 by omega,
      skip_append here (fun c mem => by rw [plain c mem, Bool.not_false]), length, skip, beyond,
      if_pos (by decide), skip]
  obtain ⟨count, rfl⟩ : ∃ n, count = n + 1 := ⟨count - 1, by omega⟩
  rw [parseLines_succ le line, if_neg (by omega), if_neg (by omega), Nat.add_sub_cancel]
  cases count with
  | zero => rw [parseLines, List.append_nil]
  | succ count => rw [parseLines, if_neg (by omega), List.append_nil]

theorem parseLines_line {i : Nat} {line rest : Text} {c : UInt16}
    (at' : s.drop i = line ++ c :: rest)
    (plain : ∀ c ∈ line, isCookieHeaderSeparator c = false)
    (separator : isCookieHeaderSeparator c = true) {count : Nat} :
    parser.parseLines p s time (count + 1) i =
      (if line = [] then [] else (parser.parseOneCookie p s i (i + line.length) time).toList) ++
        parser.parseLines p s time count (i + line.length + 1) := by
  have length : i + line.length < s.length := by
    have := congrArg List.length at'
    rw [List.length_drop, List.length_append, List.length_cons] at this
    omega
  have last : s.charAt (i + line.length) = c := charAt_of_drop (drop_add_of_drop at')
  have found : skip (fun c => !isCookieHeaderSeparator c) s i (s.length + 1 - i) =
      i + line.length := by
    rw [show s.length + 1 - i = line.length + (s.length + 1 - i - line.length) by omega,
      skip_append at' fun d mem => by rw [plain d mem, Bool.not_false]]
    exact skip_stop (by rw [last, separator, Bool.not_true]) _
  rw [parseLines_succ (by omega) found]
  cases line with
  | nil =>
    rw [List.length_nil, Nat.add_zero, if_pos rfl, if_pos rfl, List.nil_append]
  | cons d line =>
    have ne : i ≠ i + (d :: line).length := by rw [List.length_cons]; omega
    rw [if_neg ne, if_pos ⟨length, by rw [last, separator]⟩, if_neg (List.cons_ne_nil d line),
      Nat.add_sub_cancel]

/-- The cookies of a header are those of its lines. -/
theorem parse_eq (s : Text) :
    parser.parse p s time = (lineSpans s).flatMap fun span =>
      (parser.parseOneCookie p s span.1 span.2 time).toList := by
  have lines (count : Nat) : ∀ i rest, s.drop i = rest → i ≤ s.length → s.length + 1 - i ≤ count →
      parser.parseLines p s time count i =
        (spansFrom i (rest.splitOnP isCookieHeaderSeparator)).flatMap fun span =>
          (parser.parseOneCookie p s span.1 span.2 time).toList := by
    induction count with
    | zero => exact fun i rest at' le fuel => by omega
    | succ count ih =>
      intro i rest at' le fuel
      rcases exists_line rest with plain | ⟨line, c, rest', rfl, plain, separator⟩
      · have length : i + rest.length = s.length := by rw [← at', List.length_drop]; omega
        have single : rest.splitOnP isCookieHeaderSeparator = [rest] :=
          List.splitOnP_eq_singleton fun c mem => plain c mem
        rw [parseLines_last at' plain le fuel, single, spansFrom, List.flatMap_singleton, length]
      · have at'' : s.drop (i + line.length + 1) = rest' :=
          drop_succ_of_drop (drop_add_of_drop at')
        have length : i + line.length < s.length := by
          have := congrArg List.length at'
          rw [List.length_drop, List.length_append, List.length_cons] at this
          omega
        rw [parseLines_line at' plain separator, ih _ _ at'' (by omega) (by omega),
          splitOnP_line plain separator, spansFrom_cons _ _ (List.splitOnP_ne_nil _ _),
          List.flatMap_append]
        split_ifs with empty
        · rfl
        · rw [List.flatMap_singleton]
  rw [parse, lineSpans]
  split_ifs with empty
  · rfl
  · exact lines _ 0 s List.drop_zero (Nat.zero_le _) (by omega)

end CookieParser

end Odyssey.Network.Cookies
